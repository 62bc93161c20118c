import Aiobt.PieceHashing
import Aiobt.Tilings

/-! # Hashed pieces and their geometry

The digests of `_hash_pieces` are those of the pieces that a tracker of the same lengths lays out. -/
namespace HashedGeometry

open ByteStrings FlatStore PieceTracker PieceHashing Tilings

variable {sha1 : Bytes → Bytes} {n : ℕ} {data : Bytes}

/-- The consecutive chunks of `n` bytes, the last of which may be shorter. -/
def chunks (n : ℕ) (data : Bytes) : List Bytes :=
  if 0 < n ∧ data ≠ [] then data.take n :: chunks n (data.drop n) else []
termination_by data.length
decreasing_by
  next h =>
    have hpos : 0 < data.length := List.length_pos_iff.mpr h.2
    rw [List.length_drop]
    omega

/-- One chunk is taken off a stream that is not empty. -/
theorem pieceTotal_drop (hn : 0 < n) (hdata : data ≠ []) :
    pieceTotal n data = pieceTotal n (data.drop n) + 1 := by
  have hpos : 0 < data.length := List.length_pos_iff.mpr hdata
  unfold pieceTotal
  rw [List.length_drop]
  by_cases hle : n ≤ data.length
  · rw [Nat.div_eq_sub_div hn hle, Nat.mod_eq_sub_mod hle]
    omega
  · rw [show data.length - n = 0 by omega, Nat.div_eq_of_lt (by omega),
      Nat.mod_eq_of_lt (by omega), if_pos hpos, Nat.zero_div, Nat.zero_mod]
    rfl

theorem chunks_eq (hn : 0 < n) (data : Bytes) :
    chunks n data = (List.range (pieceTotal n data)).map fun i => flatRead data (i * n) n := by
  induction hlen : data.length using Nat.strong_induction_on generalizing data with
  | _ len ih =>
    subst hlen
    rw [chunks]
    by_cases hdata : data = []
    · rw [if_neg fun h => h.2 hdata, hdata]
      simp [pieceTotal]
    · have hpos : 0 < data.length := List.length_pos_iff.mpr hdata
      rw [if_pos ⟨hn, hdata⟩, pieceTotal_drop hn hdata, List.range_succ_eq_map, List.map_cons,
        List.map_map, ih (data.drop n).length (by rw [List.length_drop]; omega) (data.drop n) rfl]
      refine congrArg₂ _ ?_ (List.map_congr_left fun i _ => ?_)
      · rw [flatRead, Nat.zero_mul, List.drop_zero]
      · simp only [Function.comp, flatRead, List.drop_drop]
        rw [Nat.succ_mul, Nat.add_comm n]

theorem length_chunks (hn : 0 < n) (data : Bytes) : (chunks n data).length = pieceTotal n data := by
  rw [chunks_eq hn, List.length_map, List.length_range]

theorem hashPieces_chunks (reader : ℕ → Reader) (contents : List Bytes) (hn : 0 < n) :
    hashPieces sha1 n reader contents = ((chunks n contents.flatten).map sha1).flatten := by
  rw [hashPieces_eq reader contents hn, chunks_eq hn, List.map_map]
  rfl

theorem specAt_tiling {pieceLength : ℤ} (raw : Bytes) (total : ℤ) (i m : ℕ) (hpos : 0 < pieceLength)
    (hfit : ∀ k < i + m, (k : ℤ) * pieceLength < total)
    (hall : total ≤ ((i + m : ℕ) : ℤ) * pieceLength) :
    Tiling (min (i * pieceLength) total) ((List.range' i m).map fun k =>
      ((specAt pieceLength total raw k).offset, (specAt pieceLength total raw k).length)) total := by
  induction m generalizing i with
  | zero => exact min_eq_right hall
  | succ m ih =>
    have hstart := hfit i (by omega)
    have hstep : ((i + 1 : ℕ) : ℤ) * pieceLength = i * pieceLength + pieceLength := by
      push_cast
      ring
    rw [List.range'_succ, List.map_cons]
    refine ⟨(min_eq_left hstart.le).symm, lt_min hpos (by omega), ?_⟩
    have hnext := ih (i + 1) (fun k hk => hfit k (by omega))
      (by rwa [show i + 1 + m = i + (m + 1) by omega])
    rw [hstep] at hnext
    have hend : min (i * pieceLength) total + (specAt pieceLength total raw i).length =
        min (i * pieceLength + pieceLength) total := by
      simp only [specAt]
      omega
    rw [hend]
    exact hnext

theorem pieceCount_eq {pieceLength : ℕ} {raw : Bytes} {tr : Tracker}
    (hinit : init pieceLength data.length raw = some tr) :
    tr.pieceCount = pieceTotal pieceLength data := by
  obtain ⟨-, -, hcount, -⟩ := specs_eq_of_init hinit
  rw [hcount, Int.fdiv_eq_ediv_of_nonneg _ (by omega), Int.fmod_eq_emod_of_nonneg _ (by omega),
    pieceTotal]
  push_cast
  congr 1
  by_cases hrest : data.length % pieceLength = 0
  · rw [if_neg (by omega), if_neg (by omega)]
  · rw [if_pos (by omega), if_pos (by omega)]

/-- However the files are read, the digests are those of the consecutive chunks of their contents;
and the tracker of these digests has a piece for each, which tile the contents, with the digest of
the bytes where it lies. -/
theorem hashing_matches_geometry {pieceLength : ℕ} (hsha1 : ∀ b, (sha1 b).length = 20)
    (hpos : 1 ≤ pieceLength) (reader : ℕ → Reader) (contents : List Bytes) :
    hashPieces sha1 pieceLength reader contents =
        ((chunks pieceLength contents.flatten).map sha1).flatten ∧
      ∃ tr, init pieceLength contents.flatten.length
          (hashPieces sha1 pieceLength reader contents) = some tr ∧
        tr.pieceCount = (chunks pieceLength contents.flatten).length ∧
        tr.specs.length = (chunks pieceLength contents.flatten).length ∧
        Tiling 0 (tr.specs.map fun spec => (spec.offset, spec.length))
          (contents.flatten.length : ℤ) ∧
        (∀ (i : ℕ) spec, tr.specs[i]? = some spec → spec.length ≤ pieceLength ∧
          (i + 1 < tr.specs.length → spec.length = pieceLength)) ∧
        ∀ spec ∈ tr.specs, spec.hash =
          sha1 (slice contents.flatten spec.offset.toNat (spec.offset + spec.length).toNat) := by
  have hne : (pieceLength : ℤ) ≠ 0 := by omega
  obtain ⟨tr, hinit⟩ : ∃ tr, init pieceLength contents.flatten.length
      (hashPieces sha1 pieceLength reader contents) = some tr := ⟨_, by rw [init, if_neg hne]⟩
  have hcount := pieceCount_eq hinit
  have hlength := specs_length hinit
  have hspecs := init_specs (by omega) (by omega) hinit
  obtain ⟨-, hcover, hlast⟩ := pieceCount_bounds (by omega) (by omega) hinit
  refine ⟨hashPieces_chunks reader contents hpos, tr, hinit, ?_, ?_, ?_, ?_, ?_⟩
  · rw [hcount, length_chunks hpos]
  · rw [hlength, hcount, length_chunks hpos]
    rfl
  · have htiling := specAt_tiling (hashPieces sha1 pieceLength reader contents)
      (contents.flatten.length : ℤ) 0 tr.pieceCount.toNat (show (0 : ℤ) < pieceLength by omega)
      (fun k hk => ?_) ?_
    · rw [Nat.cast_zero, zero_mul, min_eq_left (by omega), ← List.range_eq_range'] at htiling
      rw [hspecs, List.map_map]
      exact htiling
    · have hle : (k : ℤ) ≤ tr.pieceCount - 1 := by omega
      have hmul := mul_le_mul_of_nonneg_right hle (show (0 : ℤ) ≤ pieceLength by omega)
      omega
    · rwa [Nat.zero_add, Int.toNat_of_nonneg (by omega)]
  · intro i spec hspec
    have hi := (List.getElem?_eq_some_iff.mp hspec).1
    rw [hspecs, List.getElem?_map] at hspec
    obtain ⟨k, hk, rfl⟩ := Option.map_eq_some_iff.mp hspec
    obtain ⟨-, rfl⟩ := List.getElem?_eq_some_iff.mp hk
    rw [List.getElem_range]
    refine ⟨min_le_left _ _, fun hnext => min_eq_left ?_⟩
    have hle : (i : ℤ) + 1 ≤ tr.pieceCount - 1 := by omega
    have hmul := mul_le_mul_of_nonneg_right hle (show (0 : ℤ) ≤ pieceLength by omega)
    rw [add_mul, one_mul] at hmul
    omega
  · intro spec hspec
    obtain ⟨offset, length, hoffset, hlen, -, -, hhash⟩ := piece_of_hashPieces hsha1 hpos hinit hspec
    rw [hhash, hoffset, hlen, ← Int.natCast_add, Int.toNat_natCast, Int.toNat_natCast, slice_add]
    rfl

def firstTwenty (b : Bytes) : Bytes := (b ++ List.replicate 20 0).take 20

theorem length_firstTwenty (b : Bytes) : (firstTwenty b).length = 20 := by
  rw [firstTwenty, List.length_take, List.length_append, List.length_replicate]
  omega

theorem hashing_matches_geometry_threeFiles :
    ∃ tr, init 4 6 (hashPieces firstTwenty 4 (fun _ => fullReads) [[1, 2, 3], [], [4, 5, 6]]) =
        some tr ∧
      tr.pieceCount = (chunks 4 [1, 2, 3, 4, 5, 6]).length ∧
      Tiling 0 (tr.specs.map fun spec => (spec.offset, spec.length)) 6 := by
  obtain ⟨-, tr, hinit, hcount, -, htiling, -, -⟩ := hashing_matches_geometry
    length_firstTwenty (show 1 ≤ 4 by omega) (fun _ => fullReads) [[1, 2, 3], [], [4, 5, 6]]
  exact ⟨tr, hinit, hcount, htiling⟩

end HashedGeometry
