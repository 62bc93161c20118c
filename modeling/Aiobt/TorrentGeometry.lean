import Aiobt.TorrentReserialization
import Aiobt.PieceTrackerCompiled

/-! # Geometry of accepted torrents

The parser checks types only. When the tracker of a session and the metadata agree on the pieces. -/
namespace TorrentGeometry

open ByteStrings PyDecimal BencodeCodec BencodeGrammar BencodeRoundTrip BencodeDicts SurrogateUtf8
  TorrentMetadata TorrentReserialization MachineIntegers
open PieceTracker (Tracker PieceSpec specAt)

variable {maxDigits : ℕ}

/-- `TorrentInfo.piece_count`, `none` where the property raises `ValueError`. -/
def pieceCount (info : TorrentInfo) : Option ℕ :=
  if info.piecesRaw.length % 20 = 0 then some (info.piecesRaw.length / 20) else none

/-- The tracker of a session, `none` where its constructor raises. -/
def tracker (info : TorrentInfo) : Option Tracker := do
  let total ← info.totalLength
  PieceTracker.init info.pieceLength total info.piecesRaw

/-- The tracker of the compiled module, `none` also where its constructor divides by zero. -/
def compiledTracker (info : TorrentInfo) : Option Tracker := do
  let total ← info.totalLength
  (PieceTrackerCompiled.init info.pieceLength total info.piecesRaw).toOption

def lengths (info : TorrentInfo) : List ℤ :=
  info.length.toList ++ (info.files.getD []).map fun f => f.length

/-- Metadata and tracker describe the same pieces, and pieces of a proper size. -/
structure ConsistentGeometry (info : TorrentInfo) (t : Tracker) : Prop where
  positive : 0 < info.pieceLength
  nonneg : ∀ length ∈ lengths info, 0 ≤ length
  count : (pieceCount info).map Nat.cast = some t.pieceCount
  specs : ∀ spec ∈ t.specs,
    spec.hash.length = 20 ∧ 0 < spec.length ∧ spec.length ≤ info.pieceLength

def intsOf : Option BencodeValue → List ℤ
  | some (.int z) => [z]
  | _ => []

def statedFileLengths (infoDict : Dict) : List ℤ :=
  (listOf (infoDict.lookup keyFiles)).flatMap fun item => intsOf ((dictOf item).lookup keyLength)

def statedLengths (infoDict : Dict) : List ℤ :=
  intsOf (infoDict.lookup keyLength) ++ statedFileLengths infoDict

def statedTotal (infoDict : Dict) : ℤ :=
  ((intsOf (infoDict.lookup keyLength)).head?).getD (statedFileLengths infoDict).sum

/-- The hashes are those of the pieces of the content, where counts and lengths pass through
`cast`. -/
structure HashesFit (cast : ℤ → ℤ) (pieceLength total : ℤ) (pieces : Bytes) : Prop where
  positive : 0 < pieceLength
  count : ∃ n, total ≤ n * pieceLength ∧ (n - 1) * pieceLength < total ∧
    (pieces.length : ℤ) = 20 * cast n
  lengths : ∀ i : ℕ, 20 * i < pieces.length →
    0 < cast (min pieceLength (total - i * pieceLength))

def GeometryFits (maxDigits depth : ℕ) (data : Bytes) : Prop :=
  ∃ top infoDict pieceLength pieces, decode maxDigits depth data = .ok (.dict top) ∧
    top.lookup keyInfo = some (.dict infoDict) ∧
    infoDict.lookup keyPieceLength = some (.int pieceLength) ∧
    infoDict.lookup keyPieces = some (.bytes pieces) ∧
    (∀ length ∈ statedLengths infoDict, 0 ≤ length) ∧
    HashesFit id pieceLength (statedTotal infoDict) pieces

/-- In the compiled module the sizes fit `Py_ssize_t`, and counts and lengths are cast to `int`. -/
def CompiledGeometryFits (maxDigits depth : ℕ) (data : Bytes) : Prop :=
  ∃ top infoDict pieceLength pieces, decode maxDigits depth data = .ok (.dict top) ∧
    top.lookup keyInfo = some (.dict infoDict) ∧
    infoDict.lookup keyPieceLength = some (.int pieceLength) ∧
    infoDict.lookup keyPieces = some (.bytes pieces) ∧
    (∀ length ∈ statedLengths infoDict, 0 ≤ length) ∧ pieceLength < 2 ^ 63 ∧
    statedTotal infoDict < 2 ^ 63 ∧ HashesFit cInt pieceLength (statedTotal infoDict) pieces

theorem intsOf_map (z : Option ℤ) : intsOf (z.map .int) = z.toList := by
  cases z <;> rfl

theorem statedFileLengths_eq {d : Dict} {info : TorrentInfo} (h : InfoShape d info) :
    statedFileLengths d = (info.files.getD []).map fun f => f.length := by
  unfold statedFileLengths
  have hshapes := parseRawFiles_shapes h.files
  generalize listOf (d.lookup keyFiles) = items at hshapes ⊢
  generalize info.files.getD [] = fs at hshapes ⊢
  induction hshapes with
  | nil => rfl
  | cons hitem _ ih =>
    obtain ⟨d, parts, rfl, hlength, -⟩ := hitem.shape
    rw [List.flatMap_cons, List.map_cons, ih, dictOf, hlength, intsOf, List.singleton_append]

theorem statedLengths_eq {d : Dict} {info : TorrentInfo} (h : InfoShape d info) :
    statedLengths d = lengths info := by
  rw [statedLengths, lengths, h.length, intsOf_map, statedFileLengths_eq h]

theorem statedTotal_eq {d : Dict} {info : TorrentInfo} (h : InfoShape d info) :
    info.totalLength = some (statedTotal d) := by
  rw [statedTotal, h.length, intsOf_map, statedFileLengths_eq h]
  have hcontent := h.content
  unfold TorrentInfo.totalLength
  cases hlength : info.length with
  | some length => rfl
  | none =>
    cases hfiles : info.files with
    | some fs => rfl
    | none => simp [hlength, hfiles] at hcontent

theorem statedTotal_nonneg {d : Dict} (h : ∀ length ∈ statedLengths d, 0 ≤ length) :
    0 ≤ statedTotal d := by
  unfold statedTotal
  cases hhead : (intsOf (d.lookup keyLength)).head? with
  | some length =>
    exact h length (List.mem_append_left _ (List.mem_of_mem_head? hhead))
  | none =>
    have hfiles : ∀ length ∈ statedFileLengths d, 0 ≤ length := fun length hlength =>
      h length (List.mem_append_right _ hlength)
    rw [Option.getD_none]
    generalize statedFileLengths d = fileLengths at hfiles
    induction fileLengths with
    | nil => exact le_rfl
    | cons length rest ih =>
      rw [List.forall_mem_cons] at hfiles
      rw [List.sum_cons]
      exact add_nonneg hfiles.1 (ih hfiles.2)

theorem length_hash_specAt {pieces : Bytes} {i : ℕ} (h : 20 * (i + 1) ≤ pieces.length)
    (pieceLength total : ℤ) : (specAt pieceLength total pieces i).hash.length = 20 := by
  rw [specAt, length_slice]
  omega

theorem pieceCount_eq_iff {info : TorrentInfo} {n : ℤ} :
    (pieceCount info).map Nat.cast = some n ↔ (info.piecesRaw.length : ℤ) = 20 * n := by
  unfold pieceCount
  by_cases hmod : info.piecesRaw.length % 20 = 0
  · rw [if_pos hmod, Option.map_some, Option.some.injEq]
    omega
  · rw [if_neg hmod]
    constructor
    · intro h
      cases h
    · intro h
      omega

/-- The quotient rounded up is determined by its bounds. -/
theorem count_unique {pieceLength total n k : ℤ} (h0 : 0 < pieceLength)
    (hn : total ≤ n * pieceLength) (hn' : (n - 1) * pieceLength < total)
    (hk : total ≤ k * pieceLength) (hk' : (k - 1) * pieceLength < total) : n = k := by
  have h1 : n - 1 < k := lt_of_mul_lt_mul_right (hn'.trans_le hk) h0.le
  have h2 : k - 1 < n := lt_of_mul_lt_mul_right (hk'.trans_le hn) h0.le
  omega

/-- A tracker whose count and lengths are casts is consistent exactly if the hashes fit. -/
theorem consistent_iff {cast : ℤ → ℤ} (hcast : ∀ x, 0 ≤ x → cast x ≤ x) {info : TorrentInfo}
    {total n : ℤ} {t : Tracker} {spec : ℕ → PieceSpec} (h0 : 0 < info.pieceLength)
    (hnonneg : ∀ length ∈ lengths info, 0 ≤ length) (htotal : 0 ≤ total)
    (hn : total ≤ n * info.pieceLength) (hn' : (n - 1) * info.pieceLength < total)
    (hcount : t.pieceCount = cast n) (hspecs : t.specs = (List.range t.pieceCount.toNat).map spec)
    (hlength : ∀ i : ℕ, (spec i).length =
      cast (min info.pieceLength (total - i * info.pieceLength)))
    (hhash : ∀ i, (spec i).hash = (specAt info.pieceLength total info.piecesRaw i).hash) :
    ConsistentGeometry info t ↔ HashesFit cast info.pieceLength total info.piecesRaw := by
  have hn0 : 0 ≤ n := nonneg_of_mul_nonneg_left (htotal.trans hn) h0
  constructor
  · intro h
    have hsize := pieceCount_eq_iff.mp h.count
    refine ⟨h0, ⟨n, hn, hn', hcount ▸ hsize⟩, ?_⟩
    intro i hi
    have hmem : spec i ∈ t.specs := by
      rw [hspecs]
      exact List.mem_map_of_mem (List.mem_range.mpr (by omega))
    rw [← hlength]
    exact (h.specs _ hmem).2.1
  · rintro ⟨-, ⟨k, hk, hk', hsize⟩, hpositive⟩
    obtain rfl := count_unique h0 hn hn' hk hk'
    rw [← hcount] at hsize
    refine ⟨h0, hnonneg, pieceCount_eq_iff.mpr hsize, ?_⟩
    intro s hs
    rw [hspecs] at hs
    obtain ⟨i, hi, rfl⟩ := List.mem_map.mp hs
    have hlt := List.mem_range.mp hi
    have hle : (i : ℤ) ≤ n - 1 := by
      have := hcast n hn0
      omega
    have hstart := mul_le_mul_of_nonneg_right hle h0.le
    have hmin := hcast (min info.pieceLength (total - i * info.pieceLength)) (by omega)
    rw [hlength, hhash]
    refine ⟨length_hash_specAt (by omega) _ _, hpositive i (by omega), ?_⟩
    omega

def Consistent (info : TorrentInfo) : Prop := ∃ t, tracker info = some t ∧ ConsistentGeometry info t

def CompiledConsistent (info : TorrentInfo) : Prop :=
  ∃ t, compiledTracker info = some t ∧ ConsistentGeometry info t

theorem consistent_info_iff {d : Dict} {info : TorrentInfo} (h : InfoShape d info) :
    Consistent info ↔ (∀ length ∈ statedLengths d, 0 ≤ length) ∧
      HashesFit id info.pieceLength (statedTotal d) info.piecesRaw := by
  have hmain : ∀ t, tracker info = some t → 0 < info.pieceLength →
      (∀ length ∈ statedLengths d, 0 ≤ length) →
        (ConsistentGeometry info t ↔ HashesFit id info.pieceLength (statedTotal d) info.piecesRaw) := by
    intro t ht h0 hnonneg
    rw [tracker, statedTotal_eq h] at ht
    have htotal := statedTotal_nonneg hnonneg
    obtain ⟨-, hn, hn'⟩ := PieceTracker.pieceCount_bounds h0 htotal ht
    have hspecs := PieceTracker.init_specs h0 htotal ht
    rw [statedLengths_eq h] at hnonneg
    exact consistent_iff (fun _ _ => le_rfl) h0 hnonneg htotal hn hn' rfl hspecs
      (fun _ => rfl) (fun _ => rfl)
  constructor
  · rintro ⟨t, ht, hcons⟩
    have hnonneg : ∀ length ∈ statedLengths d, 0 ≤ length := by
      rw [statedLengths_eq h]
      exact hcons.nonneg
    exact ⟨hnonneg, (hmain t ht hcons.positive hnonneg).mp hcons⟩
  · rintro ⟨hnonneg, hfit⟩
    have hne : info.pieceLength ≠ 0 := hfit.positive.ne'
    obtain ⟨t, ht⟩ : ∃ t, tracker info = some t := by
      rw [tracker, statedTotal_eq h]
      exact ⟨_, if_neg hne⟩
    exact ⟨t, ht, (hmain t ht hfit.positive hnonneg).mpr hfit⟩

theorem compiledTracker_fits {d : Dict} {info : TorrentInfo} (h : InfoShape d info) {t : Tracker}
    (ht : compiledTracker info = some t) : info.pieceLength < 2 ^ 63 ∧ statedTotal d < 2 ^ 63 := by
  have htracker : compiledTracker info =
      (PieceTrackerCompiled.init info.pieceLength (statedTotal d) info.piecesRaw).toOption := by
    rw [compiledTracker, statedTotal_eq h]
    rfl
  by_contra hbig
  have hover : ¬ Fits ssizeHalf info.pieceLength ∨ ¬ Fits ssizeHalf (statedTotal d) := by
    unfold Fits ssizeHalf
    omega
  rw [htracker, PieceTrackerCompiled.init, if_pos hover] at ht
  cases ht

theorem compiledConsistent_info_iff {d : Dict} {info : TorrentInfo} (h : InfoShape d info) :
    CompiledConsistent info ↔ (∀ length ∈ statedLengths d, 0 ≤ length) ∧
      info.pieceLength < 2 ^ 63 ∧ statedTotal d < 2 ^ 63 ∧
      HashesFit cInt info.pieceLength (statedTotal d) info.piecesRaw := by
  have hmain : 0 < info.pieceLength → (∀ length ∈ statedLengths d, 0 ≤ length) →
      info.pieceLength < 2 ^ 63 → statedTotal d < 2 ^ 63 → ∃ t, compiledTracker info = some t ∧
        (ConsistentGeometry info t ↔
          HashesFit cInt info.pieceLength (statedTotal d) info.piecesRaw) := by
    intro h0 hnonneg hp hbig
    have hne : info.pieceLength ≠ 0 := h0.ne'
    have htotal := statedTotal_nonneg hnonneg
    obtain ⟨pure, hpure⟩ :
        ∃ t, PieceTracker.init info.pieceLength (statedTotal d) info.piecesRaw = some t :=
      ⟨_, if_neg hne⟩
    obtain ⟨-, hn, hn'⟩ := PieceTracker.pieceCount_bounds h0 htotal hpure
    obtain ⟨t, hinit, hcount, hspecs⟩ := PieceTrackerCompiled.init_cast h0 hp htotal hbig hpure
    rw [statedLengths_eq h] at hnonneg
    refine ⟨t, ?_, consistent_iff (fun _ hx => cInt_le hx) h0 hnonneg htotal hn hn' hcount hspecs
      (fun _ => rfl) (fun _ => rfl)⟩
    rw [compiledTracker, statedTotal_eq h]
    exact congrArg Except.toOption hinit
  constructor
  · rintro ⟨t, ht, hcons⟩
    have hnonneg : ∀ length ∈ statedLengths d, 0 ≤ length := by
      rw [statedLengths_eq h]
      exact hcons.nonneg
    obtain ⟨hp, hbig⟩ := compiledTracker_fits h ht
    obtain ⟨t', ht', hiff⟩ := hmain hcons.positive hnonneg hp hbig
    obtain rfl := Option.some.inj (ht.symm.trans ht')
    exact ⟨hnonneg, hp, hbig, hiff.mp hcons⟩
  · rintro ⟨hnonneg, hp, hbig, hfit⟩
    obtain ⟨t, ht, hiff⟩ := hmain hfit.positive hnonneg hp hbig
    exact ⟨t, ht, hiff.mpr hfit⟩

/-- The geometry of an accepted torrent is consistent, in either module, exactly if no length is
negative and there is one hash for each piece. -/
theorem geometry_consistent_iff {sha1 : Bytes → Bytes} {depth : ℕ} {data : Bytes} {m : TorrentMeta}
    (hparse : parseTorrentBytes sha1 maxDigits depth data = .ok m) :
    (Consistent m.info ↔ GeometryFits maxDigits depth data) ∧
      (CompiledConsistent m.info ↔ CompiledGeometryFits maxDigits depth data) := by
  obtain ⟨top, infoDict, encoded, hacc⟩ := parseTorrentBytes_accepted hparse
  have hshape := hacc.shape
  have hsame : ∀ {top' infoDict' pieceLength pieces},
      decode maxDigits depth data = .ok (.dict top') →
        top'.lookup keyInfo = some (.dict infoDict') →
          infoDict'.lookup keyPieceLength = some (.int pieceLength) →
            infoDict'.lookup keyPieces = some (.bytes pieces) →
              infoDict' = infoDict ∧ pieceLength = m.info.pieceLength ∧
                pieces = m.info.piecesRaw := by
    intro top' infoDict' pieceLength pieces hdecoded hlookup hlength hpieces
    obtain rfl := BencodeValue.dict.inj (Except.ok.inj (hacc.decoded.symm.trans hdecoded))
    obtain rfl := BencodeValue.dict.inj (Option.some.inj (hacc.info.symm.trans hlookup))
    have h1 := Option.some.inj (hlength.symm.trans hshape.pieceLength)
    have h2 := Option.some.inj (hpieces.symm.trans hshape.pieces)
    exact ⟨rfl, BencodeValue.int.inj h1, BencodeValue.bytes.inj h2⟩
  rw [consistent_info_iff hshape, compiledConsistent_info_iff hshape]
  constructor
  · constructor
    · intro h
      exact ⟨top, infoDict, _, _, hacc.decoded, hacc.info, hshape.pieceLength, hshape.pieces, h⟩
    · rintro ⟨top', infoDict', pieceLength, pieces, hdecoded, hlookup, hlength, hpieces, h⟩
      obtain ⟨rfl, rfl, rfl⟩ := hsame hdecoded hlookup hlength hpieces
      exact h
  · constructor
    · intro h
      exact ⟨top, infoDict, _, _, hacc.decoded, hacc.info, hshape.pieceLength, hshape.pieces, h⟩
    · rintro ⟨top', infoDict', pieceLength, pieces, hdecoded, hlookup, hlength, hpieces, h⟩
      obtain ⟨rfl, rfl, rfl⟩ := hsame hdecoded hlookup hlength hpieces
      exact h

def oneByteInfo (pieceLength : ℤ) : Dict :=
  [(keyLength, .int 1), (keyName, .bytes [97]), (keyPieceLength, .int pieceLength),
    (keyPieces, .bytes (List.replicate 20 0))]

def oneByteTop (pieceLength : ℤ) : Dict := [(keyInfo, .dict (oneByteInfo pieceLength))]

/-- `d4:infod6:lengthi1e4:name1:a12:piece lengthi`, the digit, `e6:pieces20:`, the hash, `ee`. -/
def oneByteData (digit : UInt8) : Bytes :=
  [100, 52, 58, 105, 110, 102, 111, 100, 54, 58, 108, 101, 110, 103, 116, 104, 105, 49, 101, 52, 58,
    110, 97, 109, 101, 49, 58, 97, 49, 50, 58, 112, 105, 101, 99, 101, 32, 108, 101, 110, 103, 116,
    104, 105, digit, 101, 54, 58, 112, 105, 101, 99, 101, 115, 50, 48, 58] ++
    List.replicate 20 0 ++ [101, 101]

theorem oneByteData_parsed (sha1 : Bytes → Bytes) {pieceLength : ℤ} {digit : UInt8}
    (hdigits : WithinLimit 4300 (digitCount pieceLength))
    (hdata : encode 4300 (.dict (oneByteTop pieceLength)) = .ok (oneByteData digit)) :
    decode 4300 1000 (oneByteData digit) = .ok (.dict (oneByteTop pieceLength)) ∧
      ∃ encoded, encode 4300 (.dict (oneByteInfo pieceLength)) = .ok encoded ∧
        parseTorrentBytes sha1 4300 1000 (oneByteData digit) =
          .ok ⟨⟨decodeUtf8 [97], pieceLength, List.replicate 20 0, some 1, none, false⟩,
            sha1 encoded, none, none, none, none, none⟩ := by
  have h1 : WithinLimit 4300 (digitCount 1) := by decide
  have htop : BencodeRoundTrip.Encodable 4300 (.dict (oneByteTop pieceLength)) := by
    simp [BencodeRoundTrip.Encodable, EncodableItems, UniqueKeys, oneByteTop, oneByteInfo, h1,
      hdigits, keyInfo, keyName, keyPieceLength, keyPieces, keyLength]
  have hnesting : nesting (.dict (oneByteTop pieceLength)) ≤ 1000 := by
    simp [nesting, nestingItems, oneByteTop, oneByteInfo]
  exact infoOnly_parsed sha1 (Or.inr (by decide)) htop hnesting rfl hdata rfl

theorem oneByte_encoded :
    encode 4300 (.dict (oneByteTop 1)) = .ok (oneByteData 49) ∧
      encode 4300 (.dict (oneByteTop 0)) = .ok (oneByteData 48) := ⟨rfl, rfl⟩

theorem oneByte_fits {cast : ℤ → ℤ} (h : cast 1 = 1) :
    HashesFit cast 1 1 (List.replicate 20 0) := by
  refine ⟨by decide, ⟨1, by decide, by decide, by rw [h]; rfl⟩, ?_⟩
  intro i hi
  rw [List.length_replicate] at hi
  obtain rfl : i = 0 := by omega
  have hmin : min (1 : ℤ) (1 - (0 : ℕ) * 1) = 1 := by decide
  rw [hmin, h]
  decide

theorem geometry_consistent_one_byte : ∃ m,
    parseTorrentBytes Sha1.sha1 4300 1000 (oneByteData 49) = .ok m ∧
      Consistent m.info ∧ CompiledConsistent m.info := by
  obtain ⟨hdecode, encoded, -, hparse⟩ :=
    oneByteData_parsed Sha1.sha1 (by decide) oneByte_encoded.1
  obtain ⟨hpure, hcompiled⟩ := geometry_consistent_iff hparse
  refine ⟨_, hparse, hpure.mpr ?_, hcompiled.mpr ?_⟩
  · exact ⟨_, _, 1, List.replicate 20 0, hdecode, rfl, rfl, rfl, by decide, oneByte_fits rfl⟩
  · exact ⟨_, _, 1, List.replicate 20 0, hdecode, rfl, rfl, rfl, by decide, by decide, by decide,
      oneByte_fits rfl⟩

theorem zero_piece_length_accepted : ∃ m,
    parseTorrentBytes Sha1.sha1 4300 1000 (oneByteData 48) = .ok m ∧
      ¬ Consistent m.info ∧ ¬ CompiledConsistent m.info := by
  obtain ⟨-, encoded, -, hparse⟩ := oneByteData_parsed Sha1.sha1 (by decide) oneByte_encoded.2
  refine ⟨_, hparse, ?_, ?_⟩
  · rintro ⟨t, ht, -⟩
    cases ht
  · rintro ⟨t, ht, -⟩
    cases ht

end TorrentGeometry
