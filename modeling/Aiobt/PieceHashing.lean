import Aiobt.FlatStore
import Aiobt.PieceTracker

/-! # Hashing files into pieces

`_hash_pieces` of `create.py`: the files are one stream, which is cut into pieces. A read may return
less than it was asked for. -/
namespace PieceHashing

open ByteStrings FlatStore PieceTracker

/-- How many bytes a read returns of a file that has `left` bytes to come: some, unless the file is
at its end, and no more than were asked for. -/
structure Reader where
  amount : ℕ → ℕ → ℕ
  positive : ∀ asked left, 0 < asked → 0 < left → 0 < amount asked left
  bounded : ∀ asked left, amount asked left ≤ asked

def fullReads : Reader where
  amount asked left := min asked left
  positive _ _ h1 h2 := Nat.lt_min.mpr ⟨h1, h2⟩
  bounded asked left := Nat.min_le_left asked left

structure Hashing where
  pieces : List Bytes
  hasher : Bytes
  bytesInPiece : ℕ
  deriving DecidableEq, Repr

section
variable (sha1 : Bytes → Bytes) (pieceLength : ℕ)

def Hashing.update (h : Hashing) (chunk : Bytes) : Hashing :=
  if h.bytesInPiece + chunk.length = pieceLength then
    ⟨h.pieces ++ [sha1 (h.hasher ++ chunk)], [], 0⟩
  else ⟨h.pieces, h.hasher ++ chunk, h.bytesInPiece + chunk.length⟩

def hashFile (reader : Reader) (rest : Bytes) (h : Hashing) : Hashing :=
  let chunk := rest.take (reader.amount (pieceLength - h.bytesInPiece) rest.length)
  if chunk = [] then h
  else hashFile reader (rest.drop chunk.length) (h.update sha1 pieceLength chunk)
termination_by rest.length
decreasing_by
  next hchunk =>
    have hpos : 0 < chunk.length := List.length_pos_iff.mpr hchunk
    have hle : chunk.length ≤ rest.length := List.length_take_le' ..
    rw [List.length_drop]
    exact Nat.sub_lt (hpos.trans_le hle) hpos

def hashFiles (reader : ℕ → Reader) : ℕ → List Bytes → Hashing → Hashing
  | _, [], h => h
  | n, content :: rest, h =>
    hashFiles reader (n + 1) rest (hashFile sha1 pieceLength (reader n) content h)

def hashPieces (reader : ℕ → Reader) (contents : List Bytes) : Bytes :=
  let h := hashFiles sha1 pieceLength reader 0 contents ⟨[], [], 0⟩
  (if 0 < h.bytesInPiece then h.pieces ++ [sha1 h.hasher] else h.pieces).flatten

def pieceDigest (data : Bytes) (i : ℕ) : Bytes := sha1 (flatRead data (i * pieceLength) pieceLength)

/-- The whole pieces of a stream have been hashed, and the rest of it has been fed to the hasher. -/
structure Digested (data : Bytes) (h : Hashing) : Prop where
  pieces : h.pieces = (List.range (data.length / pieceLength)).map (pieceDigest sha1 pieceLength data)
  hasher : h.hasher = data.drop (data.length / pieceLength * pieceLength)
  bytesInPiece : h.bytesInPiece = data.length % pieceLength

end

variable {sha1 : Bytes → Bytes} {pieceLength : ℕ} {data : Bytes} {h : Hashing}

theorem digested_nil : Digested sha1 pieceLength [] ⟨[], [], 0⟩ := by
  constructor
  · simp
  · simp
  · simp

/-- More data does not change the whole pieces of a stream. -/
theorem pieceDigest_append (more : Bytes) {i : ℕ} (hi : i < data.length / pieceLength) :
    pieceDigest sha1 pieceLength (data ++ more) i = pieceDigest sha1 pieceLength data i := by
  have hend : (i + 1) * pieceLength ≤ data.length / pieceLength * pieceLength :=
    Nat.mul_le_mul_right _ hi
  have hle := Nat.div_mul_le_self data.length pieceLength
  unfold pieceDigest
  rw [Nat.succ_mul] at hend
  rw [flatRead_append_left (by omega)]

theorem Digested.update (hd : Digested sha1 pieceLength data h) {chunk : Bytes} (hpos : 0 < pieceLength)
    (hfit : chunk.length ≤ pieceLength - h.bytesInPiece) :
    Digested sha1 pieceLength (data ++ chunk) (h.update sha1 pieceLength chunk) := by
  have hdiv := Nat.div_add_mod' data.length pieceLength
  have hmod := Nat.mod_lt data.length hpos
  have hbytes := hd.bytesInPiece
  have hlen : (data ++ chunk).length =
      data.length % pieceLength + chunk.length + data.length / pieceLength * pieceLength := by
    rw [List.length_append]
    omega
  have hbuffer : h.hasher ++ chunk =
      (data ++ chunk).drop (data.length / pieceLength * pieceLength) := by
    rw [hd.hasher, List.drop_append_of_le_length (by omega)]
  have hbefore : (List.range (data.length / pieceLength)).map (pieceDigest sha1 pieceLength data) =
      (List.range (data.length / pieceLength)).map
        (pieceDigest sha1 pieceLength (data ++ chunk)) := by
    apply List.map_congr_left
    intro i hi
    exact (pieceDigest_append chunk (List.mem_range.mp hi)).symm
  unfold Hashing.update
  by_cases hfull : h.bytesInPiece + chunk.length = pieceLength
  · rw [if_pos hfull]
    have hcount : (data ++ chunk).length / pieceLength = data.length / pieceLength + 1 := by
      rw [hlen, ← hbytes, hfull, Nat.add_mul_div_right _ _ hpos, Nat.div_self hpos, Nat.add_comm]
    have hlast : pieceDigest sha1 pieceLength (data ++ chunk) (data.length / pieceLength) =
        sha1 (h.hasher ++ chunk) := by
      rw [pieceDigest, flatRead, ← hbuffer, List.take_of_length_le]
      rw [hbuffer, List.length_drop]
      omega
    constructor
    · rw [hcount, List.range_succ, List.map_append, ← hbefore, ← hd.pieces, List.map_singleton,
        hlast]
    · rw [hcount, List.drop_eq_nil_of_le]
      rw [hlen, Nat.succ_mul]
      omega
    · rw [hlen, ← hbytes, hfull, Nat.add_mul_mod_self_right, Nat.mod_self]
  · rw [if_neg hfull]
    have hless : data.length % pieceLength + chunk.length < pieceLength := by omega
    have hcount : (data ++ chunk).length / pieceLength = data.length / pieceLength := by
      rw [hlen, Nat.add_mul_div_right _ _ hpos, Nat.div_eq_of_lt hless, Nat.zero_add]
    constructor
    · rw [hcount, ← hbefore]
      exact hd.pieces
    · rw [hcount]
      exact hbuffer
    · rw [hlen, Nat.add_mul_mod_self_right, Nat.mod_eq_of_lt hless]
      exact congrArg (· + chunk.length) hbytes

theorem Digested.hashFile (hd : Digested sha1 pieceLength data h) (reader : Reader) (rest : Bytes)
    (hpos : 0 < pieceLength) :
    Digested sha1 pieceLength (data ++ rest) (hashFile sha1 pieceLength reader rest h) := by
  induction hn : rest.length using Nat.strong_induction_on generalizing rest data h with
  | _ n ih =>
    subst hn
    have hasked : 0 < pieceLength - h.bytesInPiece := by
      have := Nat.mod_lt data.length hpos
      rw [hd.bytesInPiece]
      omega
    rw [PieceHashing.hashFile]
    generalize hchunk :
      rest.take (reader.amount (pieceLength - h.bytesInPiece) rest.length) = chunk
    have hprefix : chunk <+: rest := by
      rw [← hchunk]
      exact List.take_prefix ..
    by_cases hend : chunk = []
    · -- a read returns nothing only at the end of the file
      have hempty : rest = [] := by
        by_contra hne
        have hsome := reader.positive _ rest.length hasked (List.length_pos_iff.mpr hne)
        rcases List.take_eq_nil_iff.mp (hchunk.trans hend) with hzero | hnil
        · omega
        · exact hne hnil
      rw [if_pos hend, hempty, List.append_nil]
      exact hd
    · rw [if_neg hend]
      have hfit : chunk.length ≤ pieceLength - h.bytesInPiece := by
        rw [← hchunk, List.length_take]
        exact (Nat.min_le_left _ _).trans (reader.bounded _ _)
      have hless : (rest.drop chunk.length).length < rest.length := by
        have hsome := List.length_pos_iff.mpr hend
        have hshort := hprefix.length_le
        rw [List.length_drop]
        omega
      have hnext := ih _ hless (hd.update hpos hfit) _ rfl
      rw [List.append_assoc, List.prefix_iff_eq_append.mp hprefix] at hnext
      exact hnext

theorem Digested.hashFiles (hd : Digested sha1 pieceLength data h) (reader : ℕ → Reader) (n : ℕ)
    (contents : List Bytes) (hpos : 0 < pieceLength) :
    Digested sha1 pieceLength (data ++ contents.flatten)
      (hashFiles sha1 pieceLength reader n contents h) := by
  induction contents generalizing data h n with
  | nil =>
    rw [List.flatten_nil, List.append_nil]
    exact hd
  | cons content rest ih =>
    rw [List.flatten_cons, ← List.append_assoc]
    exact ih (hd.hashFile (reader n) content hpos) (n + 1)

def pieceTotal (pieceLength : ℕ) (data : Bytes) : ℕ :=
  data.length / pieceLength + if 0 < data.length % pieceLength then 1 else 0

/-- However the files are read, what comes out is the digests of the pieces of their contents. -/
theorem hashPieces_eq (reader : ℕ → Reader) (contents : List Bytes) (hpos : 0 < pieceLength) :
    hashPieces sha1 pieceLength reader contents =
      ((List.range (pieceTotal pieceLength contents.flatten)).map
        (pieceDigest sha1 pieceLength contents.flatten)).flatten := by
  have hstart : Digested sha1 pieceLength [] ⟨[], [], 0⟩ := digested_nil
  have hd := hstart.hashFiles reader 0 contents hpos
  rw [List.nil_append] at hd
  unfold hashPieces pieceTotal
  simp only
  rw [hd.bytesInPiece]
  by_cases hrest : 0 < contents.flatten.length % pieceLength
  · rw [if_pos hrest, if_pos hrest, hd.pieces, hd.hasher, List.range_succ, List.map_append,
      List.map_singleton, pieceDigest, flatRead, List.take_of_length_le]
    have := Nat.div_add_mod' contents.flatten.length pieceLength
    have := Nat.mod_lt contents.flatten.length hpos
    rw [List.length_drop]
    omega
  · rw [if_neg hrest, if_neg hrest, hd.pieces, Nat.add_zero]

theorem slice_flatten {digests : List Bytes} (hlen : ∀ d ∈ digests, d.length = 20) {i : ℕ}
    (hi : i < digests.length) :
    slice digests.flatten (i * 20) ((i + 1) * 20) = digests[i] := by
  induction digests generalizing i with
  | nil => cases hi
  | cons d rest ih =>
    have hd : d.length = 20 := hlen d (List.mem_cons_self ..)
    cases i with
    | zero => simp [slice, hd]
    | succ i =>
      have hi' : i < rest.length := Nat.lt_of_succ_lt_succ hi
      rw [List.getElem_cons_succ, ← ih (fun d hd => hlen d (List.mem_cons_of_mem _ hd)) hi',
        List.flatten_cons, Nat.succ_mul (i + 1), slice_add, Nat.succ_mul i, slice_add,
        List.drop_append, hd, List.drop_eq_nil_of_le (by omega), List.nil_append,
        Nat.add_sub_cancel]

theorem length_hashPieces {reader : ℕ → Reader} {contents : List Bytes}
    (hsha1 : ∀ b, (sha1 b).length = 20) (hpos : 0 < pieceLength) :
    (hashPieces sha1 pieceLength reader contents).length =
      pieceTotal pieceLength contents.flatten * 20 := by
  have hdigest : List.length ∘ pieceDigest sha1 pieceLength contents.flatten = fun _ => 20 :=
    funext fun _ => hsha1 _
  rw [hashPieces_eq reader contents hpos, List.length_flatten, List.map_map, hdigest]
  simp

theorem lt_pieceTotal {i : ℕ} (hpos : 0 < pieceLength) (hi : i * pieceLength < data.length) :
    i < pieceTotal pieceLength data := by
  unfold pieceTotal
  have hle : i ≤ data.length / pieceLength := (Nat.le_div_iff_mul_le hpos).mpr hi.le
  by_cases hrest : 0 < data.length % pieceLength
  · rw [if_pos hrest]
    omega
  · have hdiv := Nat.div_add_mod' data.length pieceLength
    have hne : i ≠ data.length / pieceLength := by
      rintro rfl
      omega
    rw [if_neg hrest]
    omega

/-- The pieces of a tracker over the hashed stream: each is a part of the stream and has the digest
of that part. -/
theorem piece_of_hashPieces {reader : ℕ → Reader} {contents : List Bytes} {tr : Tracker}
    {spec : PieceSpec} (hsha1 : ∀ b, (sha1 b).length = 20) (hpos : 0 < pieceLength)
    (hinit : init pieceLength contents.flatten.length
      (hashPieces sha1 pieceLength reader contents) = some tr) (hspec : spec ∈ tr.specs) :
    ∃ offset length : ℕ, spec.offset = offset ∧ spec.length = length ∧ 0 < length ∧
      offset + length ≤ contents.flatten.length ∧
      spec.hash = sha1 (flatRead contents.flatten offset length) := by
  obtain ⟨hc0, -, hc2⟩ := pieceCount_bounds (by omega) (by omega) hinit
  rw [init_specs (by omega) (by omega) hinit] at hspec
  obtain ⟨i, hi, rfl⟩ := List.mem_map.mp hspec
  have hstart : i * pieceLength < contents.flatten.length := by
    have hlt := List.mem_range.mp hi
    have hle : (i : ℤ) ≤ tr.pieceCount - 1 := by omega
    have hmul := mul_le_mul_of_nonneg_right hle (show (0 : ℤ) ≤ pieceLength by omega)
    have hbelow := hmul.trans_lt hc2
    exact_mod_cast hbelow
  have htotal := lt_pieceTotal hpos hstart
  have hdigest : slice (hashPieces sha1 pieceLength reader contents) (i * 20) ((i + 1) * 20) =
      pieceDigest sha1 pieceLength contents.flatten i := by
    rw [hashPieces_eq reader contents hpos, slice_flatten]
    · rw [List.getElem_map, List.getElem_range]
    · intro d hd
      obtain ⟨k, -, rfl⟩ := List.mem_map.mp hd
      exact hsha1 _
    · rw [List.length_map, List.length_range]
      exact htotal
  refine ⟨i * pieceLength, min pieceLength (contents.flatten.length - i * pieceLength), ?_, ?_, ?_,
    ?_, ?_⟩
  · simp [specAt]
  · simp only [specAt]
    push_cast [hstart.le]
    rfl
  · omega
  · omega
  · rw [specAt, hdigest, pieceDigest, flatRead, flatRead, List.take_eq_take_min, List.length_drop]

end PieceHashing
