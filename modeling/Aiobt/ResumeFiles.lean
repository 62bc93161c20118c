import Aiobt.BencodeCompiledAgreement
import Aiobt.BencodeDicts
import Mathlib.Data.Finset.Sort
import Mathlib.Data.Nat.Bitwise

/-! # Resume files

`resume.py`: what `save_resume` writes, and what `load_resume` makes of the content of a file. -/
namespace ResumeFiles

open ByteStrings PyDecimal BencodeCodec BencodeRoundTrip BencodeDicts

structure ResumeData where
  infoHash : Bytes
  got : Finset ℕ
  downloaded : ℤ
  uploaded : ℤ
  deriving DecidableEq

def setBit (buf : Bytes) (idx : ℕ) : Bytes :=
  buf.modify (idx / 8) fun byte => UInt8.ofNat (byte.toNat ||| 2 ^ (7 - idx % 8))

inductive SaveError where
  | bitfieldSize (nbytes : ℤ)
  | pieceIndex
  | codec (e : PyError)
  deriving DecidableEq, Repr

/-- `_have_to_bitfield`. The order in which the set is iterated does not matter to the bits. -/
def haveToBitfield (got : Finset ℕ) (pieceCount : ℤ) : Except SaveError Bytes :=
  let nbytes := (pieceCount + 7).fdiv 8
  if nbytes < 0 ∨ 2 ^ 63 ≤ nbytes then .error (.bitfieldSize nbytes)
  else if ∃ idx ∈ got, nbytes ≤ (idx / 8 : ℕ) then .error .pieceIndex
  else .ok ((got.sort (· ≤ ·)).foldl setBit (List.replicate nbytes.toNat 0))

def hasBit (data : Bytes) (i : ℕ) : Bool :=
  match data[i / 8]? with
  | none => false
  | some byte => byte.toNat &&& 2 ^ (7 - i % 8) != 0

def bitfieldToHave (data : Bytes) (pieceCount : ℤ) : Finset ℕ :=
  (Finset.range pieceCount.toNat).filter fun i => hasBit data i

def keyInfoHash : Bytes := [105, 110, 102, 111, 95, 104, 97, 115, 104]
def keyBitfield : Bytes := [98, 105, 116, 102, 105, 101, 108, 100]
def keyPieceCount : Bytes := [112, 105, 101, 99, 101, 95, 99, 111, 117, 110, 116]
def keyDownloaded : Bytes := [100, 111, 119, 110, 108, 111, 97, 100, 101, 100]
def keyUploaded : Bytes := [117, 112, 108, 111, 97, 100, 101, 100]

def resumeDict (infoHash bitfield : Bytes) (pieceCount downloaded uploaded : ℤ) :
    List (Bytes × BencodeValue) :=
  [(keyInfoHash, .bytes infoHash), (keyBitfield, .bytes bitfield), (keyPieceCount, .int pieceCount),
    (keyDownloaded, .int downloaded), (keyUploaded, .int uploaded)]

def resumePayload (maxDigits : ℕ) (infoHash : Bytes) (got : Finset ℕ)
    (pieceCount downloaded uploaded : ℤ) : Except SaveError Bytes :=
  match haveToBitfield got pieceCount with
  | .error e => .error e
  | .ok bf =>
    match encode maxDigits (.dict (resumeDict infoHash bf pieceCount downloaded uploaded)) with
    | .error e => .error (.codec e)
    | .ok payload => .ok payload

def counter : Option BencodeValue → ℤ
  | some (.int value) => value
  | _ => 0

def readResume (raw : List (Bytes × BencodeValue)) (infoHash : Bytes) : Option ResumeData :=
  match raw.lookup keyInfoHash with
  | some (.bytes savedHash) =>
    if savedHash ≠ infoHash then none
    else
      match (raw.lookup keyPieceCount).getD (.int 0), (raw.lookup keyBitfield).getD (.bytes []) with
      | .int pieceCount, .bytes bf =>
        if pieceCount ≤ 0 then none
        else some
          { infoHash := infoHash
            got := bitfieldToHave bf pieceCount
            downloaded := counter (raw.lookup keyDownloaded)
            uploaded := counter (raw.lookup keyUploaded) }
      | _, _ => none
  | _ => none

/-- `load_resume`, with `none` for a file that is missing or cannot be read. -/
def loadResume (maxDigits depth : ℕ) (file : Option Bytes) (infoHash : Bytes) :
    Outcome (Option ResumeData) :=
  match file with
  | none => .ok none
  | some data =>
    match decode maxDigits depth data with
    | .ok (.dict raw) => .ok (readResume raw infoHash)
    | .ok _ => .ok none
    | .error (.decodeError _) => .ok none
    | .error e => .error e

@[simp] theorem length_setBit (buf : Bytes) (idx : ℕ) : (setBit buf idx).length = buf.length :=
  List.length_modify ..

theorem hasBit_eq_testBit {data : Bytes} {i : ℕ} {byte : UInt8} (h : data[i / 8]? = some byte) :
    hasBit data i = byte.toNat.testBit (7 - i % 8) := by
  rw [hasBit, h]
  simp only [Nat.and_two_pow]
  cases byte.toNat.testBit (7 - i % 8) <;> simp

theorem hasBit_setBit {buf : Bytes} {idx i : ℕ} (hidx : idx / 8 < buf.length) :
    hasBit (setBit buf idx) i = (decide (i = idx) || hasBit buf i) := by
  by_cases hbyte : i / 8 = idx / 8
  · obtain ⟨byte, hat⟩ : ∃ byte, buf[i / 8]? = some byte :=
      ⟨buf[i / 8], List.getElem?_eq_getElem (hbyte ▸ hidx)⟩
    have hset : (setBit buf idx)[i / 8]? =
        some (UInt8.ofNat (byte.toNat ||| 2 ^ (7 - idx % 8))) := by
      rw [setBit, hbyte, List.getElem?_modify_eq, ← hbyte, hat]
      rfl
    have hfits : byte.toNat ||| 2 ^ (7 - idx % 8) < 2 ^ 8 :=
      Nat.or_lt_two_pow byte.toNat_lt (Nat.pow_lt_pow_right (by decide) (by omega))
    have hposition : 7 - idx % 8 = 7 - i % 8 ↔ i = idx := by omega
    rw [hasBit_eq_testBit hset, hasBit_eq_testBit hat, UInt8.toNat_ofNat_of_lt' hfits,
      Nat.testBit_or, Nat.testBit_two_pow, Bool.or_comm, decide_eq_decide.mpr hposition]
  · have hne : i ≠ idx := fun heq => hbyte (heq ▸ rfl)
    rw [hasBit, hasBit, setBit, List.getElem?_modify_ne _ _ (Ne.symm hbyte), decide_eq_false hne,
      Bool.false_or]

theorem hasBit_foldl {order : List ℕ} {buf : Bytes} (h : ∀ idx ∈ order, idx / 8 < buf.length)
    (i : ℕ) : hasBit (order.foldl setBit buf) i = (decide (i ∈ order) || hasBit buf i) := by
  induction order generalizing buf with
  | nil => simp
  | cons idx rest ih =>
    rw [List.foldl_cons, ih, hasBit_setBit (h idx List.mem_cons_self)]
    · rw [← Bool.or_assoc, Bool.or_comm (decide _) (decide _), ← Bool.decide_or]
      simp only [List.mem_cons]
    · intro idx' hmem
      rw [length_setBit]
      exact h idx' (List.mem_cons_of_mem _ hmem)

theorem length_foldl_setBit (order : List ℕ) (buf : Bytes) :
    (order.foldl setBit buf).length = buf.length := by
  induction order generalizing buf with
  | nil => rfl
  | cons idx rest ih => rw [List.foldl_cons, ih, length_setBit]

theorem hasBit_zeros (n i : ℕ) : hasBit (List.replicate n 0) i = false := by
  unfold hasBit
  split
  · rfl
  · next byte h =>
    obtain rfl := List.eq_of_mem_replicate (List.mem_of_getElem? h)
    simp

theorem haveToBitfield_ok {got : Finset ℕ} {pieceCount : ℤ} (hcount : 0 ≤ pieceCount)
    (hsize : (pieceCount + 7).fdiv 8 < 2 ^ 63) (hgot : ∀ i ∈ got, (i : ℤ) < pieceCount) :
    ∃ bf, haveToBitfield got pieceCount = .ok bf ∧ bf.length < 2 ^ 63 ∧
      bitfieldToHave bf pieceCount = got := by
  have hdiv : (pieceCount + 7).fdiv 8 = (pieceCount + 7) / 8 :=
    Int.fdiv_eq_ediv_of_nonneg _ (by omega)
  have hinside : ∀ idx ∈ got, ((idx / 8 : ℕ) : ℤ) < (pieceCount + 7).fdiv 8 := by
    intro idx hidx
    have := hgot idx hidx
    omega
  refine ⟨(got.sort (· ≤ ·)).foldl setBit (List.replicate ((pieceCount + 7).fdiv 8).toNat 0), ?_, ?_,
    ?_⟩
  · have hfits : ¬ ((pieceCount + 7).fdiv 8 < 0 ∨ 2 ^ 63 ≤ (pieceCount + 7).fdiv 8) := by omega
    have hindex : ¬ ∃ idx ∈ got, (pieceCount + 7).fdiv 8 ≤ ((idx / 8 : ℕ) : ℤ) := by
      rintro ⟨idx, hidx, hle⟩
      have := hinside idx hidx
      omega
    simp only [haveToBitfield, if_neg hfits, if_neg hindex]
  · rw [length_foldl_setBit, List.length_replicate]
    omega
  · ext i
    rw [bitfieldToHave, Finset.mem_filter, Finset.mem_range, hasBit_foldl, hasBit_zeros, Bool.or_false,
      decide_eq_true_eq, Finset.mem_sort]
    · constructor
      · exact And.right
      · intro hi
        have := hgot i hi
        exact ⟨by omega, hi⟩
    · intro idx hidx
      have := hinside idx ((Finset.mem_sort _).mp hidx)
      rw [List.length_replicate]
      omega

variable {maxDigits depth : ℕ} {infoHash bf : Bytes} {pieceCount downloaded uploaded : ℤ}

theorem resumeDict_encodable (hhash : infoHash.length < 2 ^ 63) (hbf : bf.length < 2 ^ 63)
    (hcount : WithinLimit maxDigits (digitCount pieceCount))
    (hdownloaded : WithinLimit maxDigits (digitCount downloaded))
    (huploaded : WithinLimit maxDigits (digitCount uploaded)) :
    Encodable maxDigits (.dict (resumeDict infoHash bf pieceCount downloaded uploaded)) := by
  constructor
  · simp [UniqueKeys, resumeDict, keyInfoHash, keyBitfield, keyPieceCount, keyDownloaded, keyUploaded]
  · simp [EncodableItems, BencodeRoundTrip.Encodable, resumeDict, keyInfoHash, keyBitfield,
      keyPieceCount, keyDownloaded, keyUploaded, hcount, hdownloaded, huploaded]
    exact ⟨hhash, hbf⟩

theorem readResume_resumeDict (hcount : 1 ≤ pieceCount) (other : Bytes)
    (hunique : UniqueKeys (resumeDict infoHash bf pieceCount downloaded uploaded)) :
    readResume (sortedItems (canonItems (resumeDict infoHash bf pieceCount downloaded uploaded)))
        other =
      if infoHash ≠ other then none
      else some ⟨other, bitfieldToHave bf pieceCount, downloaded, uploaded⟩ := by
  have hlookup := lookup_canon hunique
  have hhash := hlookup keyInfoHash
  have hbitfield := hlookup keyBitfield
  have hpieces := hlookup keyPieceCount
  have hdown := hlookup keyDownloaded
  have hup := hlookup keyUploaded
  have hkeyHash : (resumeDict infoHash bf pieceCount downloaded uploaded).lookup keyInfoHash =
      some (.bytes infoHash) := rfl
  have hkeyBitfield : (resumeDict infoHash bf pieceCount downloaded uploaded).lookup keyBitfield =
      some (.bytes bf) := rfl
  have hkeyPieces : (resumeDict infoHash bf pieceCount downloaded uploaded).lookup keyPieceCount =
      some (.int pieceCount) := rfl
  have hkeyDown : (resumeDict infoHash bf pieceCount downloaded uploaded).lookup keyDownloaded =
      some (.int downloaded) := rfl
  have hkeyUp : (resumeDict infoHash bf pieceCount downloaded uploaded).lookup keyUploaded =
      some (.int uploaded) := rfl
  rw [hkeyHash] at hhash
  rw [hkeyBitfield] at hbitfield
  rw [hkeyPieces] at hpieces
  rw [hkeyDown] at hdown
  rw [hkeyUp] at hup
  have hpositive : ¬ pieceCount ≤ 0 := by omega
  simp only [readResume, hhash, hbitfield, hpieces, hdown, hup, Option.map_some, canon,
    Option.getD_some, if_neg hpositive, counter]

/-- What is loaded lies within the stored number of pieces. -/
theorem readResume_within {raw : List (Bytes × BencodeValue)} {d : ResumeData}
    (h : readResume raw infoHash = some d) : d.infoHash = infoHash ∧
      ∃ stored, raw.lookup keyPieceCount = some (.int stored) ∧ 0 < stored ∧
        ∀ i ∈ d.got, (i : ℤ) < stored := by
  unfold readResume at h
  split at h
  · split at h
    · cases h
    · split at h
      · next stored bits hstored _ =>
        split at h
        · cases h
        · next hpositive =>
          obtain rfl := Option.some.inj h
          refine ⟨rfl, stored, ?_, by omega, ?_⟩
          · cases hlookup : raw.lookup keyPieceCount with
            | none =>
              rw [hlookup] at hstored
              cases hstored
              omega
            | some v =>
              rw [hlookup] at hstored
              exact congrArg some hstored
          · intro i hi
            have hlt := Finset.mem_range.mp (Finset.mem_filter.mp hi).1
            omega
      · cases h
  · cases h

theorem decode_raises (maxDigits depth : ℕ) (data : Bytes) :
    BencodeCompiledAgreement.Raises (decode maxDigits depth data) := by
  unfold decode
  split
  · exact BencodeCompiledAgreement.raises_decode _
  · apply (BencodeCompiledAgreement.decodeAny_raises depth 0).bind
    intro r _
    obtain ⟨v, pos⟩ := r
    by_cases hpos : pos ≠ data.length
    · simp only [if_pos hpos]
      exact BencodeCompiledAgreement.raises_decode _
    · simp only [if_neg hpos]
      exact BencodeCompiledAgreement.raises_ok _

/-- Nothing but the recursion limit makes `load_resume` raise. -/
theorem loadResume_total (maxDigits depth : ℕ) (file : Option Bytes) (infoHash : Bytes) :
    loadResume maxDigits depth file infoHash = .error .recursionError ∨
      loadResume maxDigits depth file infoHash = .ok none ∨
      ∃ data raw d stored, file = some data ∧ decode maxDigits depth data = .ok (.dict raw) ∧
        loadResume maxDigits depth file infoHash = .ok (some d) ∧ d.infoHash = infoHash ∧
        raw.lookup keyPieceCount = some (.int stored) ∧ 0 < stored ∧
        ∀ i ∈ d.got, (i : ℤ) < stored := by
  cases file with
  | none => exact Or.inr (Or.inl rfl)
  | some data =>
    cases hdecode : decode maxDigits depth data with
    | error e =>
      rcases decode_raises maxDigits depth data e hdecode with ⟨reason, rfl⟩ | rfl
      · exact Or.inr (Or.inl (by simp [loadResume, hdecode]))
      · exact Or.inl (by simp [loadResume, hdecode])
    | ok v =>
      cases v with
      | dict raw =>
        have hload : loadResume maxDigits depth (some data) infoHash =
            .ok (readResume raw infoHash) := by simp [loadResume, hdecode]
        cases hread : readResume raw infoHash with
        | none => exact Or.inr (Or.inl (hload.trans (by rw [hread])))
        | some d =>
          obtain ⟨hhash, stored, hlookup, hpositive, hwithin⟩ := readResume_within hread
          exact Or.inr (Or.inr ⟨data, raw, d, stored, rfl, hdecode, hload.trans (by rw [hread]), hhash,
            hlookup, hpositive, hwithin⟩)
      | int _ => exact Or.inr (Or.inl (by simp [loadResume, hdecode]))
      | bytes _ => exact Or.inr (Or.inl (by simp [loadResume, hdecode]))
      | list _ => exact Or.inr (Or.inl (by simp [loadResume, hdecode]))

theorem payload_loaded (hlim : maxDigits = 0 ∨ 640 ≤ maxDigits) (hdepth : 2 ≤ depth)
    {got : Finset ℕ} (hhash : infoHash.length < 2 ^ 63) (hcount : 1 ≤ pieceCount)
    (hsize : (pieceCount + 7).fdiv 8 < 2 ^ 63) (hgot : ∀ i ∈ got, (i : ℤ) < pieceCount)
    (hdownloaded : WithinLimit maxDigits (digitCount downloaded))
    (huploaded : WithinLimit maxDigits (digitCount uploaded)) :
    ∃ payload, resumePayload maxDigits infoHash got pieceCount downloaded uploaded = .ok payload ∧
      ∀ other, loadResume maxDigits depth (some payload) other =
        .ok (if infoHash ≠ other then none else some ⟨other, got, downloaded, uploaded⟩) := by
  obtain ⟨bf, hbf, hlength, hback⟩ := haveToBitfield_ok (by omega) hsize hgot
  have hdigits : WithinLimit maxDigits (digitCount pieceCount) := by
    have hdiv : (pieceCount + 7).fdiv 8 = (pieceCount + 7) / 8 :=
      Int.fdiv_eq_ediv_of_nonneg _ (by omega)
    have hsmall : pieceCount.natAbs < 2 ^ 66 := by omega
    exact withinLimit_of_lt hlim (lt_trans hsmall (by norm_num))
  have hencodable := resumeDict_encodable hhash hlength hdigits hdownloaded huploaded
  have hnesting : nesting (.dict (resumeDict infoHash bf pieceCount downloaded uploaded)) ≤ depth := by
    simpa [nesting, nestingItems, resumeDict] using hdepth
  obtain ⟨payload, hpayload, -⟩ := encodeAny_prints hlim hencodable hnesting
  have hencode : encode maxDigits (.dict (resumeDict infoHash bf pieceCount downloaded uploaded)) =
      .ok payload := hpayload
  refine ⟨payload, ?_, fun other => ?_⟩
  · simp only [resumePayload, hbf, hencode]
  · have hdecode := (decode_encode hlim hencodable hnesting hencode).1
    simp only [loadResume, hdecode, canon]
    rw [readResume_resumeDict hcount other hencodable.1, hback]

/-- A saved file is loaded as it was saved, under its info hash only; and whatever a file holds,
loading it gives nothing or pieces within the stored number, up to the recursion limit. -/
theorem resume_round_trip (hlim : maxDigits = 0 ∨ 640 ≤ maxDigits) (hdepth : 2 ≤ depth) :
    (∀ (infoHash : Bytes) (got : Finset ℕ) (pieceCount downloaded uploaded : ℤ),
      infoHash.length = 20 → 1 ≤ pieceCount → (∀ i ∈ got, (i : ℤ) < pieceCount) →
      (pieceCount + 7).fdiv 8 < 2 ^ 63 → WithinLimit maxDigits (digitCount downloaded) →
      WithinLimit maxDigits (digitCount uploaded) →
      ∃ payload, resumePayload maxDigits infoHash got pieceCount downloaded uploaded = .ok payload ∧
        loadResume maxDigits depth (some payload) infoHash =
          .ok (some ⟨infoHash, got, downloaded, uploaded⟩) ∧
        ∀ other, other ≠ infoHash → loadResume maxDigits depth (some payload) other = .ok none) ∧
    ∀ (file : Option Bytes) (infoHash : Bytes),
      loadResume maxDigits depth file infoHash = .error .recursionError ∨
      loadResume maxDigits depth file infoHash = .ok none ∨
      ∃ data raw d stored, file = some data ∧ decode maxDigits depth data = .ok (.dict raw) ∧
        loadResume maxDigits depth file infoHash = .ok (some d) ∧ d.infoHash = infoHash ∧
        raw.lookup keyPieceCount = some (.int stored) ∧ 0 < stored ∧
        ∀ i ∈ d.got, (i : ℤ) < stored := by
  refine ⟨?_, loadResume_total maxDigits depth⟩
  intro infoHash got pieceCount downloaded uploaded hhash hcount hgot hsize hdownloaded huploaded
  have hshort : infoHash.length < 2 ^ 63 := by
    rw [hhash]
    decide
  obtain ⟨payload, hpayload, hload⟩ :=
    payload_loaded hlim hdepth hshort hcount hsize hgot hdownloaded huploaded
  refine ⟨payload, hpayload, ?_, fun other hother => ?_⟩
  · rw [hload, if_neg (not_not.mpr rfl)]
  · rw [hload, if_pos (Ne.symm hother)]

/-- Pieces on both sides of a byte, and counters of both signs. -/
theorem resume_round_trip_some : ∃ payload,
    resumePayload 4300 (List.replicate 20 7) {0, 7, 8, 9} 10 (-5) 16384 = .ok payload ∧
      loadResume 4300 1000 (some payload) (List.replicate 20 7) =
        .ok (some ⟨List.replicate 20 7, {0, 7, 8, 9}, -5, 16384⟩) ∧
      loadResume 4300 1000 (some payload) (List.replicate 20 8) = .ok none := by
  obtain ⟨payload, hpayload, hload, hother⟩ :=
    (@resume_round_trip 4300 1000 (Or.inr (by decide)) (by decide)).1
      (List.replicate 20 7) {0, 7, 8, 9} 10 (-5) 16384 (by decide) (by decide) (by decide)
      (by decide) (by decide) (by decide)
  exact ⟨payload, hpayload, hload, hother _ (by decide)⟩

theorem counter_not_saved {got : Finset ℕ} {payload : Bytes} (hhash : infoHash.length < 2 ^ 63)
    (hcount : 0 ≤ pieceCount) (hsize : (pieceCount + 7).fdiv 8 < 2 ^ 63)
    (hgot : ∀ i ∈ got, (i : ℤ) < pieceCount) (h : ¬ WithinLimit maxDigits (digitCount downloaded)) :
    resumePayload maxDigits infoHash got pieceCount downloaded uploaded ≠ .ok payload := by
  intro hpayload
  obtain ⟨bf, hbf, hlength, -⟩ := haveToBitfield_ok hcount hsize hgot
  unfold resumePayload at hpayload
  simp only [hbf] at hpayload
  split at hpayload
  · cases hpayload
  · next data hencode =>
    have hsizes : Encodable 0 (.dict (resumeDict infoHash bf pieceCount downloaded uploaded)) :=
      resumeDict_encodable hhash hlength (Or.inl rfl) (Or.inl rfl) (Or.inl rfl)
    obtain ⟨-, -, -, -, -, -, -, -, hdownloaded, -⟩ := encodable_of_encode hencode hsizes
    exact h hdownloaded

theorem long_counter_not_saved :
    ¬ ∃ payload, resumePayload 4300 (List.replicate 20 7) {0} 1 (10 ^ 4300) 0 = .ok payload := by
  rintro ⟨payload, hpayload⟩
  refine counter_not_saved (by decide) (by decide) (by decide) (by decide) ?_ hpayload
  rintro (hzero | hle)
  · cases hzero
  · have := digitCount_pow 4300
    omega

end ResumeFiles
