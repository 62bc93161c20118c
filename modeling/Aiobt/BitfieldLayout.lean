import Aiobt.PeerMessages
import Aiobt.ResumeFiles

/-! # The layout of bitfields

`build_bitfield` and `_bitfield_to_set` of the engine, `Bitfield.has_piece`, and
`_have_to_bitfield` and `_bitfield_to_have` of the resume files. -/
namespace BitfieldLayout

open ByteStrings PieceTracker PeerMessages ResumeFiles

def ofHighBits (p : ℕ → Prop) [DecidablePred p] (m : ℕ) : ℕ :=
  ((List.range m).map fun j => if p j then 2 ^ (m - 1 - j) else 0).sum

section

variable {p : ℕ → Prop} [DecidablePred p] {m : ℕ}

theorem ofHighBits_succ : ofHighBits p (m + 1) = 2 * ofHighBits p m + if p m then 1 else 0 := by
  have hshift : ∀ j ∈ List.range m, (if p j then 2 ^ (m + 1 - 1 - j) else 0) =
      2 * if p j then 2 ^ (m - 1 - j) else 0 := by
    intro j hj
    have hlt := List.mem_range.mp hj
    have hexp : m + 1 - 1 - j = (m - 1 - j) + 1 := by omega
    split
    · rw [hexp, pow_succ, Nat.mul_comm]
    · rfl
  rw [ofHighBits, List.range_succ, List.map_append, List.map_congr_left hshift, List.sum_append,
    List.sum_map_mul_left, List.map_singleton, List.sum_singleton, Nat.add_sub_cancel, Nat.sub_self,
    pow_zero]
  rfl

theorem ofHighBits_lt : ofHighBits p m < 2 ^ m := by
  induction m with
  | zero => exact Nat.one_pos
  | succ m ih =>
    rw [ofHighBits_succ, pow_succ]
    split <;> omega

theorem testBit_ofHighBits {j : ℕ} (h : j < m) :
    (ofHighBits p m).testBit (m - 1 - j) = decide (p j) := by
  induction m with
  | zero => omega
  | succ m ih =>
    rw [ofHighBits_succ]
    rcases Nat.lt_succ_iff_lt_or_eq.mp h with hlt | rfl
    · have hposition : m + 1 - 1 - j = (m - 1 - j) + 1 := by omega
      have hhalf : (2 * ofHighBits p m + if p m then 1 else 0) / 2 = ofHighBits p m := by
        split <;> omega
      rw [hposition, Nat.testBit_succ, hhalf, ih hlt]
    · rw [Nat.add_sub_cancel, Nat.sub_self, Nat.testBit_zero]
      by_cases hp : p j <;> simp [hp]

end

theorem hasPiece_eq_hasBit (data : Bytes) (i : ℕ) : hasPiece data i = hasBit data i := by
  rw [hasPiece]
  split
  · next hnone => rw [hasBit, hnone]
  · next byte hbyte => exact (hasBit_eq_testBit hbyte).symm

theorem hasPiece_map_bitfieldByte {pieces : Finset ℕ} {n i : ℕ} (h : i / 8 < n) :
    hasPiece ((List.range n).map (bitfieldByte pieces)) i = decide (i ∈ pieces) := by
  have hbyte : ((List.range n).map (bitfieldByte pieces))[i / 8]? = some (bitfieldByte pieces (i / 8)) := by
    rw [List.getElem?_map, List.getElem?_range h]
    rfl
  have hvalue : (bitfieldByte pieces (i / 8)).toNat =
      ofHighBits (fun j => 8 * (i / 8) + j ∈ pieces) 8 :=
    UInt8.toNat_ofNat_of_lt' (ofHighBits_lt (m := 8))
  have hposition : 8 * (i / 8) + i % 8 = i := Nat.div_add_mod i 8
  rw [hasPiece, hbyte]
  dsimp only
  rw [hvalue]
  have hbit := testBit_ofHighBits (p := fun j => 8 * (i / 8) + j ∈ pieces) (m := 8) (j := i % 8)
    (Nat.mod_lt i (by decide))
  rw [hposition] at hbit
  exact hbit

theorem hasPiece_of_getElem? {data : Bytes} {k q : ℕ} {byte : UInt8} (hq : q < 8)
    (h : data[k]? = some byte) : hasPiece data (8 * k + (7 - q)) = byte.toNat.testBit q := by
  have hindex : (8 * k + (7 - q)) / 8 = k := by omega
  have hposition : 7 - (8 * k + (7 - q)) % 8 = q := by omega
  rw [hasPiece, hindex, h, hposition]

theorem ext_hasPiece {a b : Bytes} (hlength : a.length = b.length)
    (h : ∀ i, i / 8 < a.length → hasPiece a i = hasPiece b i) : a = b := by
  apply List.ext_getElem hlength
  intro k ha hb
  rw [← UInt8.toNat_inj]
  apply Nat.eq_of_testBit_eq
  intro q
  by_cases hq : q < 8
  · have hsame := h (8 * k + (7 - q)) (by omega)
    rwa [hasPiece_of_getElem? hq (List.getElem?_eq_getElem ha),
      hasPiece_of_getElem? hq (List.getElem?_eq_getElem hb)] at hsame
  · have hpow : 2 ^ 8 ≤ 2 ^ q := Nat.pow_le_pow_right (by decide) (by omega)
    rw [Nat.testBit_lt_two_pow (lt_of_lt_of_le a[k].toNat_lt hpow),
      Nat.testBit_lt_two_pow (lt_of_lt_of_le b[k].toNat_lt hpow)]

structure OneLayout (t : Tracker) (n : ℕ) : Prop where
  encode : ∃ bf, buildBitfield t = some bf ∧ haveToBitfield t.got n = .ok bf ∧
    bf.length = (n + 7) / 8 ∧ (∀ i, n ≤ i → i < 8 * bf.length → hasPiece bf i = false) ∧
      (∀ i, hasPiece bf i = true ↔ i ∈ t.got) ∧
        bitfieldToSet bf n = t.got ∧ bitfieldToHave bf n = t.got
  decode : ∀ data, bitfieldToSet data n = bitfieldToHave data n ∧
    (∀ i ∈ bitfieldToSet data n, i < n) ∧
      ∃ bf, buildBitfield { t with got := bitfieldToSet data n } = some bf ∧
        haveToBitfield (bitfieldToHave data n) n = .ok bf ∧
          ∀ i < n, hasPiece bf i = hasPiece data i

section

variable {t : Tracker} {n : ℕ}

theorem nbytes_eq (n : ℕ) : (((n : ℕ) : ℤ) + 7).fdiv 8 = ((n + 7) / 8 : ℕ) := by
  rw [Int.fdiv_eq_ediv_of_nonneg _ (by omega)]
  omega

theorem buildBitfield_eq (hcount : t.pieceCount = n) (hsize : (n + 7) / 8 < 2 ^ 63)
    (hgot : ∀ i ∈ t.got, i < n) :
    buildBitfield t = some ((List.range ((n + 7) / 8)).map (bitfieldByte t.got)) := by
  have hall : ¬ ((((n + 7) / 8 : ℕ) : ℤ) < 0 ∨ 2 ^ 63 ≤ (((n + 7) / 8 : ℕ) : ℤ) ∨
      ∃ i ∈ t.got, (((n + 7) / 8 : ℕ) : ℤ) ≤ (i / 8 : ℕ)) := by
    rintro (hneg | hlarge | ⟨i, hi, hle⟩)
    · omega
    · omega
    · have := hgot i hi
      omega
  rw [buildBitfield, hcount, nbytes_eq, if_neg hall, Int.toNat_natCast]

theorem haveToBitfield_eq {got : Finset ℕ} (hsize : (n + 7) / 8 < 2 ^ 63) (hgot : ∀ i ∈ got, i < n) :
    haveToBitfield got n = .ok ((List.range ((n + 7) / 8)).map (bitfieldByte got)) := by
  have hfits : ¬ ((((n + 7) / 8 : ℕ) : ℤ) < 0 ∨ 2 ^ 63 ≤ (((n + 7) / 8 : ℕ) : ℤ)) := by omega
  have hindex : ¬ ∃ idx ∈ got, (((n + 7) / 8 : ℕ) : ℤ) ≤ ((idx / 8 : ℕ) : ℤ) := by
    rintro ⟨idx, hidx, hle⟩
    have := hgot idx hidx
    omega
  have hinside : ∀ idx ∈ got.sort (· ≤ ·),
      idx / 8 < (List.replicate ((n + 7) / 8) (0 : UInt8)).length := by
    intro idx hidx
    have := hgot idx ((Finset.mem_sort _).mp hidx)
    rw [List.length_replicate]
    omega
  rw [haveToBitfield, nbytes_eq, if_neg hfits, if_neg hindex, Int.toNat_natCast]
  refine congrArg Except.ok (ext_hasPiece ?_ fun i hi => ?_)
  · rw [length_foldl_setBit, List.length_replicate, List.length_map, List.length_range]
  · rw [length_foldl_setBit, List.length_replicate] at hi
    rw [hasPiece_eq_hasBit, hasBit_foldl hinside, hasBit_zeros, Bool.or_false,
      hasPiece_map_bitfieldByte hi]
    exact decide_eq_decide.mpr (Finset.mem_sort _)

theorem hasPiece_built {got : Finset ℕ} (hgot : ∀ i ∈ got, i < n) (i : ℕ) :
    hasPiece ((List.range ((n + 7) / 8)).map (bitfieldByte got)) i = decide (i ∈ got) := by
  by_cases hi : i / 8 < (n + 7) / 8
  · exact hasPiece_map_bitfieldByte hi
  · have hout : i ∉ got := by
      intro hmem
      have := hgot i hmem
      omega
    have hnone : ((List.range ((n + 7) / 8)).map (bitfieldByte got))[i / 8]? = none := by
      rw [List.getElem?_eq_none_iff, List.length_map, List.length_range]
      omega
    rw [hasPiece, hnone, decide_eq_false hout]

theorem bitfieldToSet_eq (data : Bytes) (n : ℕ) : bitfieldToSet data n = bitfieldToHave data n := by
  ext i
  rw [mem_bitfieldToSet, bitfieldToHave, Finset.mem_filter, Finset.mem_range, hasPiece_eq_hasBit]

/-- While `bytearray` takes the size, there is one layout. -/
theorem one_layout (hcount : t.pieceCount = n) (hsize : (n + 7) / 8 < 2 ^ 63)
    (hgot : ∀ i ∈ t.got, i < n) : OneLayout t n := by
  constructor
  · refine ⟨_, buildBitfield_eq hcount hsize hgot, haveToBitfield_eq hsize hgot, ?_, ?_, ?_, ?_⟩
    · rw [List.length_map, List.length_range]
    · intro i hi _
      rw [hasPiece_built hgot, decide_eq_false]
      intro hmem
      have := hgot i hmem
      omega
    · intro i
      rw [hasPiece_built hgot, decide_eq_true_eq]
    · have hset : bitfieldToSet ((List.range ((n + 7) / 8)).map (bitfieldByte t.got)) n = t.got := by
        ext i
        rw [mem_bitfieldToSet, hasPiece_built hgot, decide_eq_true_eq, Int.toNat_natCast]
        exact ⟨And.right, fun hi => ⟨hgot i hi, hi⟩⟩
      exact ⟨hset, (bitfieldToSet_eq _ n).symm.trans hset⟩
  · intro data
    have hinside : ∀ i ∈ bitfieldToSet data n, i < n := by
      intro i hi
      rw [mem_bitfieldToSet, Int.toNat_natCast] at hi
      exact hi.1
    refine ⟨bitfieldToSet_eq data n, hinside, _,
      buildBitfield_eq (t := { t with got := bitfieldToSet data n }) hcount hsize hinside, ?_, ?_⟩
    · rw [← bitfieldToSet_eq]
      exact haveToBitfield_eq hsize hinside
    · intro i hi
      rw [hasPiece_built hinside, Bool.eq_iff_iff, decide_eq_true_eq, mem_bitfieldToSet,
        Int.toNat_natCast]
      exact and_iff_right hi

end

def trackerOf (n : ℕ) (got : Finset ℕ) : Tracker := ⟨n, [], got, ∅, ∅, fun _ => none⟩

theorem one_layout_ten : OneLayout (trackerOf 10 {0, 3, 9}) 10 :=
  one_layout rfl (by decide) (by decide)

theorem huge_bitfield_refused : ¬ OneLayout (trackerOf (2 ^ 66) ∅) (2 ^ 66) := by
  intro h
  obtain ⟨bf, -, hsaved, -⟩ := h.encode
  have hlarge : (((2 ^ 66 : ℕ) : ℤ) + 7).fdiv 8 < 0 ∨ 2 ^ 63 ≤ (((2 ^ 66 : ℕ) : ℤ) + 7).fdiv 8 := by
    decide
  rw [haveToBitfield, if_pos hlarge] at hsaved
  cases hsaved

end BitfieldLayout
