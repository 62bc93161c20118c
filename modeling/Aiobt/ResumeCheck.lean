import Aiobt.CreatedTorrents
import Aiobt.ResumeFiles
import Aiobt.TrackerAccounting

/-! # The first check of a session

`check_resume` with nothing else running: which pieces it finds, whatever the storage holds and
whatever the resume file is. -/
namespace ResumeCheck

open ByteStrings BencodeCodec PieceTracker PieceEngine ResumeFiles
open SessionTasks (newSession)
open TrackerAccounting (sizeOf sizeOf_congr)
open CreatedTorrents (checkPiece Valid foldl_checkPiece)

inductive ReadError where
  | osError
  | valueError
  deriving DecidableEq, Repr

structure Surroundings where
  maxDigits : ℕ
  /-- How deep the interpreter lets `_decode_any` call itself. -/
  depth : ℕ
  infoHash : Bytes
  /-- The resume file: `none` without a state directory, `some none` if it cannot be read. -/
  resume : Option (Option Bytes)
  /-- What the storage holds in a range, which may be less than was asked for. -/
  stored : ℤ → ℤ → Bytes
  raises : ℕ → Option ReadError

namespace Surroundings

def read (e : Surroundings) (idx : ℕ) (offset length : ℤ) : Except ReadError Bytes :=
  match e.raises idx with
  | some error => .error error
  | none => .ok (e.stored offset length)

def claimed (e : Surroundings) : Outcome (Finset ℕ × ℤ) :=
  match e.resume with
  | none => .ok (∅, 0)
  | some file =>
    match loadResume e.maxDigits e.depth file e.infoHash with
    | .ok (some data) => .ok (data.got, data.uploaded)
    | .ok none => .ok (∅, 0)
    | .error error => .error error

end Surroundings

section
variable (sha1 : Bytes → Bytes) (e : Surroundings)

def checkPieces (pieces : Finset ℕ) (s : Session) : Session :=
  if pieces = ∅ then s
  else
    let tracker := (pieces.sort (· ≤ ·)).foldl
      (fun t idx => checkPiece sha1 (e.read idx) t idx) s.tracker
    { s with
      state := .checking
      events := s.events ++ [.stateChanged s.state .checking]
      tracker := tracker
      bytesDownloaded := ∑ i ∈ tracker.got, ((tracker.specs[i]?).map PieceSpec.length).getD 0 }

/-- `check_resume`, which leaves a session behind also when it raises. -/
def checkResume (s : Session) : Outcome Unit × Session :=
  if s.resumeChecked then (.ok (), s)
  else
    let s := { s with resumeChecked := true }
    match e.claimed with
    | .error error => (.error error, s)
    | .ok (haveFromResume, uploaded) =>
      let s := { s with bytesUploaded :=
        if haveFromResume ≠ ∅ ∧ uploaded > s.bytesUploaded then uploaded else s.bytesUploaded }
      let pieces :=
        if haveFromResume ≠ ∅ then haveFromResume else Finset.range s.tracker.pieceCount.toNat
      (.ok (), checkPieces sha1 e pieces s)

end

/-- The resume file belongs to the torrent, and piece `i` is in it. -/
def Claims (e : Surroundings) (i : ℕ) : Prop :=
  ∃ data raw pieceCount bf, e.resume = some (some data) ∧
    decode e.maxDigits e.depth data = .ok (.dict raw) ∧
    raw.lookup keyInfoHash = some (.bytes e.infoHash) ∧
    raw.lookup keyPieceCount = some (.int pieceCount) ∧ raw.lookup keyBitfield = some (.bytes bf) ∧
    (i : ℤ) < pieceCount ∧ hasBit bf i = true

def Candidate (e : Surroundings) (t : Tracker) (i : ℕ) : Prop :=
  (i : ℤ) < t.pieceCount ∧ ((∃ j, Claims e j) → Claims e i)

/-- A piece can be read, is stored in full length and has its hash. -/
def Good (sha1 : Bytes → Bytes) (e : Surroundings) (t : Tracker) (i : ℕ) : Prop :=
  e.raises i = none ∧ ∃ spec, t.specs[i]? = some spec ∧
    ((e.stored spec.offset spec.length).length : ℤ) = spec.length ∧
    sha1 (e.stored spec.offset spec.length) = spec.hash

/-- A check of a session whose tracker is `t` marks the candidates that are good, and no others. -/
structure FindsValid (sha1 : Bytes → Bytes) (e : Surroundings) (t : Tracker)
    (result : Outcome Unit × Session) : Prop where
  returns : result.1 = .ok ()
  got : ∀ i, i ∈ result.2.tracker.got ↔ Candidate e t i ∧ Good sha1 e t i
  bytes : result.2.bytesDownloaded = sizeOf t result.2.tracker.got

/-- Reading the resume file exceeds the recursion limit. -/
def TooDeep (e : Surroundings) : Prop :=
  ∃ data, e.resume = some (some data) ∧ decode e.maxDigits e.depth data = .error .recursionError

section
variable {e : Surroundings}

theorem mem_readResume {raw : List (Bytes × BencodeValue)} {infoHash : Bytes} {i : ℕ} :
    (∃ d, readResume raw infoHash = some d ∧ i ∈ d.got) ↔
      ∃ pieceCount bf, raw.lookup keyInfoHash = some (.bytes infoHash) ∧
        raw.lookup keyPieceCount = some (.int pieceCount) ∧
        raw.lookup keyBitfield = some (.bytes bf) ∧ (i : ℤ) < pieceCount ∧ hasBit bf i = true := by
  constructor
  · rintro ⟨d, hread, hi⟩
    unfold readResume at hread
    split at hread
    · next savedHash hhash =>
      split at hread
      · cases hread
      · next hsame =>
        obtain rfl := not_not.mp hsame
        split at hread
        · next pieceCount bf hcount hbits =>
          split at hread
          · cases hread
          · obtain rfl := Option.some.inj hread
            obtain ⟨hlt, hbit⟩ := Finset.mem_filter.mp hi
            have hlt := Finset.mem_range.mp hlt
            refine ⟨pieceCount, bf, hhash, ?_, ?_, by omega, hbit⟩
            · cases hlookup : raw.lookup keyPieceCount with
              | none =>
                rw [hlookup] at hcount
                cases hcount
                omega
              | some v =>
                rw [hlookup] at hcount
                exact congrArg some hcount
            · cases hlookup : raw.lookup keyBitfield with
              | none =>
                rw [hlookup] at hbits
                cases hbits
                cases hbit
              | some v =>
                rw [hlookup] at hbits
                exact congrArg some hbits
        · cases hread
    · cases hread
  · rintro ⟨pieceCount, bf, hhash, hcount, hbits, hlt, hbit⟩
    refine ⟨⟨infoHash, bitfieldToHave bf pieceCount, counter (raw.lookup keyDownloaded),
      counter (raw.lookup keyUploaded)⟩, ?_, ?_⟩
    · have hpositive : ¬ pieceCount ≤ 0 := by omega
      simp only [readResume, hhash, hcount, hbits, Option.getD_some, ne_eq, not_true_eq_false,
        if_false, if_neg hpositive]
    · exact Finset.mem_filter.mpr ⟨Finset.mem_range.mpr (by omega), hbit⟩

theorem claimed_error {error : PyError} (h : e.claimed = .error error) : TooDeep e := by
  unfold Surroundings.claimed at h
  split at h
  · cases h
  · next file hfile =>
    split at h
    · cases h
    · cases h
    · next error' hload =>
      cases file with
      | none => cases hload
      | some data =>
        refine ⟨data, hfile, ?_⟩
        cases hdecode : decode e.maxDigits e.depth data with
        | ok v => cases v <;> simp [loadResume, hdecode] at hload
        | error reason =>
          rcases decode_raises e.maxDigits e.depth data reason hdecode with ⟨why, rfl⟩ | rfl
          · simp [loadResume, hdecode] at hload
          · rfl

theorem claimed_of_tooDeep (h : TooDeep e) : e.claimed = .error .recursionError := by
  obtain ⟨data, hresume, hdecode⟩ := h
  simp only [Surroundings.claimed, hresume, loadResume, hdecode]

theorem loadResume_some {maxDigits depth : ℕ} {file : Option Bytes} {infoHash : Bytes}
    {d : ResumeData} (h : loadResume maxDigits depth file infoHash = .ok (some d)) :
    ∃ data raw, file = some data ∧ decode maxDigits depth data = .ok (.dict raw) ∧
      readResume raw infoHash = some d := by
  cases file with
  | none => cases h
  | some data =>
    unfold loadResume at h
    simp only at h
    split at h
    · next raw hdecode => exact ⟨data, raw, rfl, hdecode, Except.ok.inj h⟩
    · cases h
    · cases h
    · cases h

theorem claims_iff (i : ℕ) : Claims e i ↔ ∃ file d, e.resume = some file ∧
    loadResume e.maxDigits e.depth file e.infoHash = .ok (some d) ∧ i ∈ d.got := by
  constructor
  · rintro ⟨data, raw, pieceCount, bf, hresume, hdecode, hclaims⟩
    obtain ⟨d, hread, hi⟩ := mem_readResume.mpr ⟨pieceCount, bf, hclaims⟩
    exact ⟨some data, d, hresume, by simp only [loadResume, hdecode, hread], hi⟩
  · rintro ⟨file, d, hresume, hload, hi⟩
    obtain ⟨data, raw, rfl, hdecode, hread⟩ := loadResume_some hload
    obtain ⟨pieceCount, bf, hclaims⟩ := mem_readResume.mp ⟨d, hread, hi⟩
    exact ⟨data, raw, pieceCount, bf, hresume, hdecode, hclaims⟩

theorem mem_claimed {haveFromResume : Finset ℕ} {uploaded : ℤ}
    (h : e.claimed = .ok (haveFromResume, uploaded)) (i : ℕ) : i ∈ haveFromResume ↔ Claims e i := by
  rw [claims_iff]
  unfold Surroundings.claimed at h
  split at h
  · next hnone =>
    obtain ⟨rfl, -⟩ := Prod.mk.inj (Except.ok.inj h)
    constructor
    · intro hi
      cases hi
    · rintro ⟨file, d, hresume, -⟩
      cases hnone.symm.trans hresume
  · next file hfile =>
    split at h
    · next d hload =>
      obtain ⟨rfl, -⟩ := Prod.mk.inj (Except.ok.inj h)
      constructor
      · exact fun hi => ⟨file, d, hfile, hload, hi⟩
      · rintro ⟨file', d', hresume, hload', hi⟩
        obtain rfl := Option.some.inj (hfile.symm.trans hresume)
        obtain rfl := Option.some.inj (Except.ok.inj (hload.symm.trans hload'))
        exact hi
    · next hload =>
      obtain ⟨rfl, -⟩ := Prod.mk.inj (Except.ok.inj h)
      constructor
      · intro hi
        cases hi
      · rintro ⟨file', d', hresume, hload', -⟩
        obtain rfl := Option.some.inj (hfile.symm.trans hresume)
        cases hload.symm.trans hload'
    · cases h

end

section
variable {sha1 : Bytes → Bytes} {e : Surroundings} {t : Tracker}

theorem good_iff {i : ℕ} :
    Good sha1 e t i ↔ ∃ spec, t.specs[i]? = some spec ∧ Valid sha1 (e.read i) spec := by
  constructor
  · rintro ⟨hraises, spec, hspec, hlength, hhash⟩
    exact ⟨spec, hspec, _, by rw [Surroundings.read, hraises], hlength, hhash⟩
  · rintro ⟨spec, hspec, data, hread, hlength, hhash⟩
    unfold Surroundings.read at hread
    split at hread
    · cases hread
    · next hraises =>
      obtain rfl := Except.ok.inj hread
      exact ⟨hraises, spec, hspec, hlength, hhash⟩

theorem Good.lt {i : ℕ} (h : Good sha1 e t i) (hlen : t.specs.length = t.pieceCount.toNat) :
    (i : ℤ) < t.pieceCount := by
  obtain ⟨-, spec, hspec, -⟩ := h
  have := (List.getElem?_eq_some_iff.mp hspec).1
  omega

theorem candidate_iff {haveFromResume : Finset ℕ} (hclaims : ∀ i, i ∈ haveFromResume ↔ Claims e i)
    {i : ℕ} (hlt : (i : ℤ) < t.pieceCount) : Candidate e t i ↔
      i ∈ if haveFromResume ≠ ∅ then haveFromResume else Finset.range t.pieceCount.toNat := by
  by_cases hnone : haveFromResume = ∅
  · rw [if_neg (not_not.mpr hnone), Finset.mem_range]
    constructor
    · intro _
      omega
    · rintro -
      refine ⟨hlt, fun ⟨j, hj⟩ => ?_⟩
      have hmem := (hclaims j).mpr hj
      rw [hnone] at hmem
      cases hmem
  · rw [if_pos hnone, hclaims]
    obtain ⟨j, hj⟩ := Finset.nonempty_iff_ne_empty.mpr hnone
    constructor
    · rintro ⟨-, hall⟩
      exact hall ⟨j, (hclaims j).mp hj⟩
    · exact fun hi => ⟨hlt, fun _ => hi⟩

theorem checkPieces_spec {pieces : Finset ℕ} {s : Session}
    (hlen : s.tracker.specs.length = s.tracker.pieceCount.toNat)
    (hbytes : s.bytesDownloaded = sizeOf s.tracker s.tracker.got) :
    (∀ i, i ∈ (checkPieces sha1 e pieces s).tracker.got ↔
        i ∈ s.tracker.got ∨ (i ∈ pieces ∧ Good sha1 e s.tracker i)) ∧
      (checkPieces sha1 e pieces s).bytesDownloaded =
        sizeOf s.tracker (checkPieces sha1 e pieces s).tracker.got := by
  unfold checkPieces
  by_cases hempty : pieces = ∅
  · rw [if_pos hempty, hempty]
    refine ⟨fun i => ⟨Or.inl, ?_⟩, hbytes⟩
    rintro (hi | ⟨hi, -⟩)
    · exact hi
    · cases hi
  · rw [if_neg hempty]
    obtain ⟨hspecs, -, hmem⟩ := foldl_checkPiece sha1 e.read (pieces.sort (· ≤ ·)) hlen
    refine ⟨fun i => ?_, sizeOf_congr hspecs _⟩
    have hmarked := hmem i
    rw [Finset.mem_sort, ← good_iff] at hmarked
    exact hmarked

/-- A check whose resume file does not exceed the recursion limit. -/
theorem findsValid_of_claimed (sha1 : Bytes → Bytes) {haveFromResume : Finset ℕ} {uploaded : ℤ}
    (storage : Bytes)
    (hlen : t.specs.length = t.pieceCount.toNat) (hgot : t.got = ∅)
    (hclaimed : e.claimed = .ok (haveFromResume, uploaded)) :
    FindsValid sha1 e t (checkResume sha1 e (newSession t storage)) := by
  have hclaims := mem_claimed hclaimed
  unfold checkResume
  simp only [newSession, Bool.false_eq_true, if_false, hclaimed]
  refine ⟨rfl, fun i => ?_, ?_⟩
  · rw [(checkPieces_spec hlen (by rw [hgot]; rfl)).1]
    simp only [hgot, Finset.notMem_empty, false_or]
    exact and_congr_left fun hgood => (candidate_iff hclaims (hgood.lt hlen)).symm
  · exact (checkPieces_spec hlen (by rw [hgot]; rfl)).2

theorem raises_of_tooDeep (sha1 : Bytes → Bytes) (t : Tracker) (storage : Bytes) (h : TooDeep e) :
    (checkResume sha1 e (newSession t storage)).1 = .error .recursionError ∧
      (checkResume sha1 e (newSession t storage)).2.tracker = t := by
  simp [checkResume, newSession, claimed_of_tooDeep h]

/-- The first check of a session finds the valid candidates, unless the resume file is nested so
deeply that reading it exceeds the recursion limit. -/
theorem first_check_finds_valid_iff {pieceLength totalLength : ℤ} {raw : Bytes}
    (htr : init pieceLength totalLength raw = some t) (e : Surroundings) (storage : Bytes) :
    FindsValid sha1 e t (checkResume sha1 e (newSession t storage)) ↔ ¬ TooDeep e := by
  constructor
  · intro hfinds hdeep
    cases hfinds.returns.symm.trans (raises_of_tooDeep sha1 t storage hdeep).1
  · intro hshallow
    cases hclaimed : e.claimed with
    | error reason => exact absurd (claimed_error hclaimed) hshallow
    | ok claims =>
      exact findsValid_of_claimed sha1 storage (specs_length htr) (specs_eq_of_init htr).2.2.2.1
        hclaimed

end

def onePiece (resume : Option (Option Bytes)) : Surroundings where
  maxDigits := 4300
  depth := 1000
  infoHash := []
  resume := resume
  stored _ _ := List.replicate 20 7
  raises _ := none

theorem first_check_finds_valid_corrupt :
    ∃ tr, init 20 20 (List.replicate 20 7) = some tr ∧
      0 ∈ (checkResume id (onePiece (some (some [120]))) (newSession tr [])).2.tracker.got := by
  obtain ⟨tr, htr⟩ : ∃ tr, init 20 20 (List.replicate 20 7) = some tr := ⟨_, rfl⟩
  have hone : tr.specs = [⟨0, 0, 20, List.replicate 20 7⟩] ∧ tr.pieceCount = 1 := by
    obtain rfl := Option.some.inj htr
    decide
  have hunreadable : decode 4300 1000 [120] = raiseDecode (.unexpectedByte 120 0) := rfl
  have hshallow : ¬ TooDeep (onePiece (some (some [120]))) := by
    rintro ⟨data, hdata, hdecode⟩
    obtain rfl := Option.some.inj (Option.some.inj hdata)
    cases hunreadable.symm.trans hdecode
  refine ⟨tr, htr, (((first_check_finds_valid_iff htr _ _).mpr hshallow).got 0).mpr ⟨⟨?_, ?_⟩, ?_⟩⟩
  · rw [hone.2]
    exact Int.one_pos
  · rintro ⟨j, data, raw, pieceCount, bf, hdata, hdecode, -⟩
    obtain rfl := Option.some.inj (Option.some.inj hdata)
    cases hunreadable.symm.trans hdecode
  · exact ⟨rfl, _, by rw [hone.1]; rfl, rfl, rfl⟩

theorem decodeAny_nested (maxDigits : ℕ) {n depth pos : ℕ} (h : pos + depth < n) :
    decodeAny maxDigits (List.replicate n chrL) depth pos = .error .recursionError := by
  induction depth generalizing pos with
  | zero => rfl
  | succ depth ih =>
    have hopen : ∀ i < n, (List.replicate n chrL)[i]? = some chrL := by
      intro i hi
      rw [List.getElem?_replicate, if_pos hi]
    have hinner := ih (show pos + 1 + depth < n by omega)
    have hlist : decodeList (decodeAny maxDigits (List.replicate n chrL) depth)
        (List.replicate n chrL) pos = .error .recursionError := by
      rw [decodeList, decodeListLoop, hopen (pos + 1) (by omega), hinner]
      rfl
    rw [decodeAny, hopen pos (by omega), hlist]
    rfl

theorem decode_nested (maxDigits depth : ℕ) :
    decode maxDigits depth (List.replicate (depth + 1) chrL) = .error .recursionError := by
  rw [decode, if_neg (by simp), decodeAny_nested maxDigits (by omega)]
  rfl

theorem nested_file_not_checked :
    ∃ tr e, init 20 20 (List.replicate 20 7) = some tr ∧
      e = onePiece (some (some (List.replicate 1001 chrL))) ∧ Candidate e tr 0 ∧ Good id e tr 0 ∧
      (checkResume id e (newSession tr [])).1 = .error .recursionError ∧
      0 ∉ (checkResume id e (newSession tr [])).2.tracker.got ∧
      ¬ FindsValid id e tr (checkResume id e (newSession tr [])) := by
  obtain ⟨tr, htr⟩ : ∃ tr, init 20 20 (List.replicate 20 7) = some tr := ⟨_, rfl⟩
  have hone : tr.specs = [⟨0, 0, 20, List.replicate 20 7⟩] ∧ tr.pieceCount = 1 ∧ tr.got = ∅ := by
    obtain rfl := Option.some.inj htr
    decide
  have hdecode := decode_nested 4300 1000
  have hdeep : TooDeep (onePiece (some (some (List.replicate 1001 chrL)))) := ⟨_, rfl, hdecode⟩
  obtain ⟨hraises, hkept⟩ := raises_of_tooDeep id tr [] hdeep
  refine ⟨tr, _, htr, rfl, ⟨?_, ?_⟩, ?_, hraises, ?_, ?_⟩
  · rw [hone.2.1]
    exact Int.one_pos
  · rintro ⟨j, data, raw, pieceCount, bf, hdata, hread, -⟩
    obtain rfl := Option.some.inj (Option.some.inj hdata)
    cases hdecode.symm.trans hread
  · exact ⟨rfl, _, by rw [hone.1]; rfl, rfl, rfl⟩
  · rw [hkept, hone.2.2]
    exact Finset.notMem_empty 0
  · intro hfinds
    cases hfinds.returns.symm.trans hraises

end ResumeCheck
