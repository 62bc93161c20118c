import Aiobt.EngineTurns

/-! # Pieces that are had are stored

Whatever the tasks of a session do, a piece that is marked as had is in the storage as a whole. A
byte that is right stays right: only verified pieces are written, each over its own range. -/
namespace VerifiedPieces

open ByteStrings PieceTracker PeerMessages PieceEngine SessionTasks PieceSearch EngineTurns FlatStore
open InterleavedProcesses

/-- Pieces of lengths that are not negative lie in the storage, one after the other. -/
structure Tiles (specs : List PieceSpec) (size : ℕ) : Prop where
  inside : ∀ (i : ℕ) (spec : PieceSpec), specs[i]? = some spec → 0 ≤ spec.length →
    0 ≤ spec.offset ∧ spec.offset + spec.length ≤ size
  apart : ∀ (i j : ℕ) (si sj : PieceSpec), i < j → specs[i]? = some si → specs[j]? = some sj → 0 ≤ si.length →
    0 ≤ sj.length → si.offset + si.length ≤ sj.offset

theorem buildSpecsLoop_negative {pieceLength totalLength : ℤ} {raw : Bytes} (h : pieceLength < 0)
    {n i : ℕ} {offset : ℤ} {spec : PieceSpec}
    (hm : spec ∈ buildSpecsLoop pieceLength totalLength raw n i offset) : spec.length < 0 := by
  induction n generalizing i offset with
  | zero => cases hm
  | succ n ih =>
    rcases List.mem_cons.mp hm with rfl | hm
    · exact lt_of_le_of_lt (min_le_left _ _) h
    · exact ih hm

theorem pieceCount_nonpos {pieceLength totalLength : ℤ} {raw : Bytes} {tr : Tracker}
    (h : init pieceLength totalLength raw = some tr) (h1 : 1 ≤ pieceLength) (h0 : totalLength < 0) :
    tr.pieceCount ≤ 0 := by
  obtain ⟨-, -, hcount, -⟩ := specs_eq_of_init h
  have hdiv : totalLength.fdiv pieceLength < 0 := Int.fdiv_neg_of_neg_of_pos h0 (by omega)
  rw [hcount]
  split <;> omega

theorem init_positive {pieceLength totalLength : ℤ} {raw : Bytes} {tr : Tracker}
    (h1 : 1 ≤ pieceLength) (h0 : 0 ≤ totalLength) (htr : init pieceLength totalLength raw = some tr)
    {i : ℕ} {spec : PieceSpec} (hat : tr.specs[i]? = some spec) : 0 < spec.length := by
  obtain ⟨hcount, -, hlast⟩ := pieceCount_bounds h1 h0 htr
  rw [init_specs h1 h0 htr, List.getElem?_map, Option.map_eq_some_iff] at hat
  obtain ⟨k, hk, rfl⟩ := hat
  obtain ⟨hlt, hk⟩ := List.getElem?_eq_some_iff.mp hk
  rw [List.getElem_range] at hk
  rw [List.length_range] at hlt
  subst hk
  have hle : (i : ℤ) ≤ tr.pieceCount - 1 := by omega
  have hbefore := mul_le_mul_of_nonneg_right hle (show 0 ≤ pieceLength by omega)
  show 0 < min pieceLength (totalLength - i * pieceLength)
  omega

theorem init_tiles {pieceLength totalLength : ℤ} {raw : Bytes} {tr : Tracker}
    (h : init pieceLength totalLength raw = some tr) : Tiles tr.specs totalLength.toNat := by
  obtain ⟨hne, hspecs, hcount, -⟩ := specs_eq_of_init h
  by_cases hneg : pieceLength < 0
  · have hall : ∀ (i : ℕ) (spec : PieceSpec), tr.specs[i]? = some spec → ¬ 0 ≤ spec.length := by
      intro i spec hi
      have := buildSpecsLoop_negative hneg (hspecs ▸ List.mem_of_getElem? hi)
      omega
    exact ⟨fun i spec hi hlen => absurd hlen (hall i spec hi),
      fun i j si sj _ hi _ hlen => absurd hlen (hall i si hi)⟩
  · have h1 : 1 ≤ pieceLength := by omega
    by_cases h0 : totalLength < 0
    · have hnil : tr.specs = [] := by
        rw [hspecs, Int.toNat_of_nonpos (pieceCount_nonpos h h1 h0)]
        rfl
      rw [hnil]
      exact ⟨fun i spec hi => by simp at hi, fun i j si sj _ hi => by simp at hi⟩
    · have hclosed := init_specs h1 (by omega) h
      have hat : ∀ (i : ℕ) (spec : PieceSpec), tr.specs[i]? = some spec →
          i < tr.pieceCount.toNat ∧ spec = specAt pieceLength totalLength raw i := by
        intro i spec hi
        rw [hclosed, List.getElem?_map] at hi
        obtain ⟨k, hk, rfl⟩ := Option.map_eq_some_iff.mp hi
        obtain ⟨hlt, rfl⟩ := List.getElem?_eq_some_iff.mp hk
        rw [List.length_range] at hlt
        rw [List.getElem_range]
        exact ⟨hlt, rfl⟩
      constructor
      · intro i spec hi hlen
        obtain ⟨-, rfl⟩ := hat i spec hi
        simp only [specAt] at hlen ⊢
        have : 0 ≤ (i : ℤ) * pieceLength := Int.mul_nonneg (by omega) (by omega)
        omega
      · intro i j si sj hij hi hj hli hlj
        obtain ⟨-, rfl⟩ := hat i si hi
        obtain ⟨-, rfl⟩ := hat j sj hj
        simp only [specAt]
        have hstep : ((i : ℤ) + 1) * pieceLength ≤ (j : ℤ) * pieceLength :=
          Int.mul_le_mul_of_nonneg_right (by omega) (by omega)
        rw [Int.add_mul, Int.one_mul] at hstep
        omega

theorem Tiles.position {specs : List PieceSpec} {size i j k l : ℕ} {si sj : PieceSpec}
    (h : Tiles specs size) (hi : specs[i]? = some si) (hj : specs[j]? = some sj)
    (hk : (k : ℤ) < si.length) (hl : (l : ℤ) < sj.length)
    (heq : si.offset.toNat + k = sj.offset.toNat + l) : i = j ∧ k = l := by
  have hini := (h.inside i si hi (by omega)).1
  have hinj := (h.inside j sj hj (by omega)).1
  rcases lt_trichotomy i j with hlt | rfl | hlt
  · have := h.apart i j si sj hlt hi hj (by omega) (by omega)
    omega
  · obtain rfl : si = sj := Option.some.inj (hi.symm.trans hj)
    exact ⟨rfl, by omega⟩
  · have := h.apart j i sj si hlt hj hi (by omega) (by omega)
    omega

section
variable (sha1 : Bytes → Bytes) (content : ℕ → Bytes) (specs : List PieceSpec) (size : ℕ)

/-- `verify_piece` accepts one byte string for each piece, which has the length of the piece. -/
def OnlyContent : Prop :=
  ∀ (i : ℕ) (spec : PieceSpec), specs[i]? = some spec → ∀ data,
    verifyPiece sha1 data spec.hash = true → data = content i ∧ (data.length : ℤ) = spec.length

def KeepsRight (s s' : Session) : Prop :=
  ∀ (i k : ℕ) (spec : PieceSpec) (byte : UInt8), specs[i]? = some spec → (k : ℤ) < spec.length →
    (content i)[k]? = some byte → s.storage[spec.offset.toNat + k]? = some byte →
    s'.storage[spec.offset.toNat + k]? = some byte

def Stored (s : Session) (i : ℕ) : Prop :=
  ∃ spec, specs[i]? = some spec ∧ verifyPiece sha1 (content i) spec.hash = true ∧
    ((content i).length : ℤ) = spec.length ∧
    ∀ (k : ℕ) (byte : UInt8), (content i)[k]? = some byte →
      s.storage[spec.offset.toNat + k]? = some byte

structure Verified (s : Session) : Prop where
  specs_eq : s.tracker.specs = specs
  count : specs.length = s.tracker.pieceCount.toNat
  size_eq : s.storage.length = size
  apart : ∀ i ∈ s.tracker.got, i ∉ s.tracker.pending
  stored : ∀ i ∈ s.tracker.got, Stored sha1 content specs s i

/-- What holds of a process: a task knows its piece, and a scan has read what is stored. -/
def ProcOk (s : Session) : Proc → Prop
  | .peer t => TaskOk sha1 specs t
  | .starter st =>
    match st.point with
    | .read index spec data _ => specs[index]? = some spec ∧ (data.length : ℤ) ≤ max 0 spec.length ∧
      ∀ (k : ℕ) (byte : UInt8), data[k]? = some byte → (content index)[k]? = some byte →
        s.storage[spec.offset.toNat + k]? = some byte
    | _ => True

end

variable {sha1 : Bytes → Bytes} {kind : StorageKind} {content : ℕ → Bytes} {specs : List PieceSpec}
  {size : ℕ} {s s' : Session}

theorem KeepsRight.of_same (h : s'.storage = s.storage) : KeepsRight content specs s s' := by
  intro i k spec byte _ _ _ hb
  rw [h]
  exact hb

theorem procOk_of_point {st : Starter}
    (h : ∀ index spec data todo, st.point ≠ .read index spec data todo) :
    ProcOk sha1 content specs s (.starter st) := by
  cases hp : st.point with
  | read index spec data todo => exact absurd hp (h _ _ _ _)
  | _ => simp only [ProcOk, hp]

theorem Stored.keep {i : ℕ} (h : Stored sha1 content specs s i) (hkeep : KeepsRight content specs s s') :
    Stored sha1 content specs s' i := by
  obtain ⟨spec, hat, hverify, hlen, hbytes⟩ := h
  refine ⟨spec, hat, hverify, hlen, fun k byte hk => ?_⟩
  have hlt : k < (content i).length := (List.getElem?_eq_some_iff.mp hk).1
  exact hkeep i k spec byte hat (by omega) hk (hbytes k byte hk)

/-- Everything but a write and a mark of a piece as had. -/
theorem Verified.undisturbed (h : Verified sha1 content specs size s) (hs : Undisturbed s s') :
    Verified sha1 content specs size s' where
  specs_eq := hs.marks.specs.trans h.specs_eq
  count := by
    rw [hs.marks.pieceCount]
    exact h.count
  size_eq := by
    rw [hs.storage]
    exact h.size_eq
  apart i hi hp := by
    rw [hs.marks.got] at hi
    rcases hs.marks.pending i hp with hp | hp
    · exact h.apart i hi hp
    · exact hp.2 hi
  stored i hi := by
    rw [hs.marks.got] at hi
    exact (h.stored i hi).keep (.of_same hs.storage)

theorem keepsRight_of_piece {index : ℕ} {spec : PieceSpec} (htiles : Tiles specs size)
    (hat : specs[index]? = some spec) (hlen : ((content index).length : ℤ) = spec.length)
    (hinside : ∀ (l : ℕ) (byte : UInt8), (content index)[l]? = some byte →
      s.storage[spec.offset.toNat + l]? = some byte → s'.storage[spec.offset.toNat + l]? = some byte)
    (houtside : ∀ n, (∀ l < (content index).length, n ≠ spec.offset.toNat + l) →
      s'.storage[n]? = s.storage[n]?) : KeepsRight content specs s s' := by
  intro i k sp byte hi hk hbyte hold
  by_cases hmine : ∃ l < (content index).length, sp.offset.toNat + k = spec.offset.toNat + l
  · obtain ⟨l, hl, heq⟩ := hmine
    obtain ⟨rfl, rfl⟩ := htiles.position hi hat hk (by omega) heq
    obtain rfl : sp = spec := Option.some.inj (hi.symm.trans hat)
    exact hinside k byte hbyte hold
  · rw [houtside]
    · exact hold
    · intro l hl heq
      exact hmine ⟨l, hl, heq⟩

theorem stores_keepsRight {index k : ℕ} {spec : PieceSpec} {byte : UInt8} (htiles : Tiles specs size)
    (hat : specs[index]? = some spec) (hlen : ((content index).length : ℤ) = spec.length)
    (hbyte : (content index)[k]? = some byte) :
    KeepsRight content specs s { s with storage := s.storage.set (spec.offset.toNat + k) byte } := by
  have hk : k < (content index).length := (List.getElem?_eq_some_iff.mp hbyte).1
  refine keepsRight_of_piece htiles hat hlen (fun l b hl hold => ?_) fun n hn => ?_
  · by_cases hkl : l = k
    · subst hkl
      obtain rfl : byte = b := Option.some.inj (hbyte.symm.trans hl)
      simp only [List.getElem?_set_self (List.getElem?_eq_some_iff.mp hold).1]
    · simp only [List.getElem?_set_ne (show spec.offset.toNat + k ≠ spec.offset.toNat + l by omega)]
      exact hold
  · exact List.getElem?_set_ne (hn k hk).symm

theorem writes_keepsRight {index : ℕ} {spec : PieceSpec} (htiles : Tiles specs size)
    (hsize : s.storage.length = size) (hat : specs[index]? = some spec)
    (hlen : ((content index).length : ℤ) = spec.length) :
    KeepsRight content specs s { s with
        storage := flatWrite s.storage spec.offset.toNat (content index)
        tracker := s.tracker.markHave index
        events := s.events ++ [.pieceVerified index] } ∧
      ∀ (k : ℕ) (byte : UInt8), (content index)[k]? = some byte →
        (flatWrite s.storage spec.offset.toNat (content index))[spec.offset.toNat + k]? = some byte := by
  obtain ⟨hoff, hend⟩ := htiles.inside index spec hat (by omega)
  have hfits : spec.offset.toNat + (content index).length ≤ s.storage.length := by omega
  have hnew : ∀ (k : ℕ) (byte : UInt8), (content index)[k]? = some byte →
      (flatWrite s.storage spec.offset.toNat (content index))[spec.offset.toNat + k]? = some byte := by
    intro k byte hk
    rw [flatWrite_getElem?_inside hfits (List.getElem?_eq_some_iff.mp hk).1, hk]
  refine ⟨keepsRight_of_piece htiles hat hlen (fun l b hl _ => hnew l b hl) fun n hn => ?_, hnew⟩
  refine flatWrite_getElem?_outside hfits ?_
  by_contra hno
  rw [not_or, not_lt, not_le] at hno
  exact hn (n - spec.offset.toNat) (by omega) (by omega)

variable {a : Action} {t t' : Task} {st st' : Starter}

theorem Verified.turn (h : Verified sha1 content specs size s) (htiles : Tiles specs size)
    (honly : OnlyContent sha1 content specs) (hok : TaskOk sha1 specs t)
    (hturn : Turn sha1 kind a s t s' t') :
    Verified sha1 content specs size s' ∧ TaskOk sha1 specs t' ∧ KeepsRight content specs s s' := by
  have htask : TaskOk sha1 specs t' := by
    rw [← h.specs_eq] at hok ⊢
    exact (hturn.taskOk hok).2
  rcases hturn.effect with hsame | ⟨index, spec, assembled, hp, hwrite⟩
  · exact ⟨h.undisturbed hsame, htask, .of_same hsame.storage⟩
  · obtain ⟨-, hat, hverify⟩ := hok.writing index spec assembled (by rw [hp]; rfl)
    obtain ⟨rfl, hlen⟩ := honly index spec hat _ hverify
    rcases hwrite with ⟨k, byte, hbyte, rfl⟩ | rfl
    · have hkeep := stores_keepsRight (s := s) htiles hat hlen hbyte
      refine ⟨⟨h.specs_eq, h.count, ?_, h.apart, fun i hi => (h.stored i hi).keep hkeep⟩, htask, hkeep⟩
      rw [List.length_set]
      exact h.size_eq
    · obtain ⟨hkeep, hnew⟩ := writes_keepsRight htiles h.size_eq hat hlen
      refine ⟨⟨h.specs_eq, h.count, ?_, ?_, ?_⟩, htask, hkeep⟩
      · obtain ⟨hoff, hend⟩ := htiles.inside index spec hat (by omega)
        have hsize := h.size_eq
        rw [length_flatWrite (by omega), hsize]
      · intro i hi hpend
        rcases Finset.mem_insert.mp hi with rfl | hi
        · exact Finset.notMem_erase _ _ hpend
        · exact h.apart i hi (Finset.mem_of_mem_erase hpend)
      · intro i hi
        rcases Finset.mem_insert.mp hi with rfl | hi
        · exact ⟨spec, hat, hverify, hlen, hnew⟩
        · exact (h.stored i hi).keep hkeep

theorem afterCheck_undisturbed (s : Session) (st : Starter) : Undisturbed s (afterCheck s st).1 ∧
    (afterCheck s st).2.point = .emitStarted := by
  unfold afterCheck
  split
  · exact ⟨⟨Marks.refl _, rfl⟩, rfl⟩
  · exact ⟨⟨Marks.refl _, rfl⟩, rfl⟩

/-- A scan goes on with a piece of which nothing is read yet, or it is over. -/
theorem scanFrom_spec {todo : List ℕ} (hspecs : s.tracker.specs = specs) :
    Undisturbed s (scanFrom s st todo).1 ∧
      ProcOk sha1 content specs (scanFrom s st todo).1 (.starter (scanFrom s st todo).2) := by
  induction todo with
  | nil =>
    obtain ⟨hsame, hpoint⟩ := afterCheck_undisturbed { s with bytesDownloaded :=
      ∑ i ∈ s.tracker.got, ((s.tracker.specs[i]?).map PieceSpec.length).getD 0 } st
    refine ⟨⟨hsame.marks, hsame.storage⟩, procOk_of_point fun _ _ _ _ hread => ?_⟩
    rw [scanFrom, hpoint] at hread
    cases hread
  | cons idx todo ih =>
    unfold scanFrom
    split
    · exact ih
    · split
      · exact ⟨⟨Marks.refl _, rfl⟩, trivial⟩
      · next spec hspec =>
        rw [hspecs] at hspec
        refine ⟨⟨Marks.refl _, rfl⟩, hspec, by simp, fun k byte hk => ?_⟩
        simp at hk

theorem fetchByte_some {storage data : Bytes} {offset length : ℤ} {byte : UInt8}
    (h : fetchByte storage offset length data = some byte) :
    (data.length : ℤ) < length ∧ 0 ≤ offset + data.length ∧
      storage[(offset + data.length).toNat]? = some byte := by
  unfold fetchByte at h
  split at h
  · next hin => exact ⟨hin.1, hin.2, h⟩
  · cases h

/-- What was read is in the storage, as far as it is right, and so is one byte more. -/
theorem read_next {index : ℕ} {spec : PieceSpec} {data : Bytes} {byte : UInt8}
    (htiles : Tiles specs size) (hat : specs[index]? = some spec)
    (hread : ∀ (k : ℕ) (b : UInt8), data[k]? = some b → (content index)[k]? = some b →
      s.storage[spec.offset.toNat + k]? = some b)
    (hbyte : fetchByte s.storage spec.offset spec.length data = some byte) :
    ((data ++ [byte]).length : ℤ) ≤ max 0 spec.length ∧
      ∀ (k : ℕ) (b : UInt8), (data ++ [byte])[k]? = some b → (content index)[k]? = some b →
        s.storage[spec.offset.toNat + k]? = some b := by
  obtain ⟨hlt, -, hat'⟩ := fetchByte_some hbyte
  have hoff := (htiles.inside index spec hat (by omega)).1
  rw [List.length_append, List.length_singleton]
  refine ⟨by omega, fun k b hk hright => ?_⟩
  by_cases hold : k < data.length
  · rw [List.getElem?_append_left hold] at hk
    exact hread k b hk hright
  · have hlast : k < (data ++ [byte]).length := (List.getElem?_eq_some_iff.mp hk).1
    rw [List.length_append, List.length_singleton] at hlast
    obtain rfl : k = data.length := by omega
    rw [List.getElem?_append_right (le_refl _), Nat.sub_self] at hk
    obtain rfl : byte = b := by simpa using hk
    rw [← hat']
    congr 1
    omega

theorem checkResume_spec (s : Session) (st : Starter) :
    Undisturbed s (checkResume s st).1 ∧
      ((checkResume s st).2.point = .emitStarted ∨ ∃ todo, (checkResume s st).2.point = .emitChecking todo) := by
  unfold checkResume
  simp only
  generalize (if st.haveFromResume ≠ ∅ then st.haveFromResume
    else Finset.range s.tracker.pieceCount.toNat) = pieces
  split
  · exact ⟨(afterCheck_undisturbed s st).1, Or.inl (afterCheck_undisturbed s st).2⟩
  · split
    · obtain ⟨hs, hp⟩ := afterCheck_undisturbed { s with
        resumeChecked := true
        bytesUploaded :=
          if st.haveFromResume ≠ ∅ ∧ st.uploadedFromResume > s.bytesUploaded then
            st.uploadedFromResume
          else s.bytesUploaded } st
      exact ⟨⟨hs.marks, hs.storage⟩, Or.inl hp⟩
    · exact ⟨⟨Marks.refl _, rfl⟩, Or.inr ⟨_, rfl⟩⟩

theorem stored_of_read {index : ℕ} {spec : PieceSpec} {data : Bytes}
    (honly : OnlyContent sha1 content specs) (hat : specs[index]? = some spec)
    (hread : ∀ (k : ℕ) (byte : UInt8), data[k]? = some byte → (content index)[k]? = some byte →
      s.storage[spec.offset.toNat + k]? = some byte)
    (hverify : verifyPiece sha1 data spec.hash = true) : Stored sha1 content specs s index := by
  obtain ⟨rfl, hlen⟩ := honly index spec hat data hverify
  exact ⟨spec, hat, hverify, hlen, fun k byte hk => hread k byte hk hk⟩

theorem Verified.start {b : StartAction} (h : Verified sha1 content specs size s)
    (htiles : Tiles specs size) (honly : OnlyContent sha1 content specs)
    (hok : ProcOk sha1 content specs s (.starter st))
    (hstep : startStep sha1 b s st = some (s', st')) :
    Verified sha1 content specs size s' ∧ ProcOk sha1 content specs s' (.starter st') ∧
      KeepsRight content specs s s' := by
  -- a scan that goes on from a session with verified pieces
  have hscan : ∀ {s₁ : Session} {todo : List ℕ}, Verified sha1 content specs size s₁ →
      s₁.storage = s.storage → scanFrom s₁ st todo = (s', st') →
      Verified sha1 content specs size s' ∧ ProcOk sha1 content specs s' (.starter st') ∧
        KeepsRight content specs s s' := by
    intro s₁ todo h₁ hstorage heq
    obtain ⟨hs, hp⟩ : Undisturbed s₁ (scanFrom s₁ st todo).1 ∧ ProcOk sha1 content specs
      (scanFrom s₁ st todo).1 (.starter (scanFrom s₁ st todo).2) := scanFrom_spec h₁.specs_eq
    rw [heq] at hs hp
    exact ⟨h₁.undisturbed hs, hp, .of_same (hs.storage.trans hstorage)⟩
  cases startTurn_of_step hstep with
  | ends hs hst =>
    rw [hs, hst]
    exact ⟨h, trivial, .of_same rfl⟩
  | checks hpoint heq =>
    obtain ⟨hs, hp⟩ := checkResume_spec s st
    rw [heq] at hs hp
    refine ⟨h.undisturbed hs, procOk_of_point fun _ _ _ _ hread => ?_, .of_same hs.storage⟩
    rcases hp with hp | ⟨todo, hp⟩
    · cases hp.symm.trans hread
    · cases hp.symm.trans hread
  | scans todo hpoint heq => exact hscan h rfl heq
  | @marks idx spec data todo hpoint hverify heq =>
    simp only [ProcOk, hpoint] at hok
    obtain ⟨hat, -, hread⟩ := hok
    have hstored := stored_of_read honly hat hread hverify
    have hmarked : Verified sha1 content specs size
        { s with tracker := s.tracker.markHave idx } := by
      refine ⟨h.specs_eq, h.count, h.size_eq, fun i hi hpend => ?_, fun i hi => ?_⟩
      · rcases Finset.mem_insert.mp hi with rfl | hi
        · exact Finset.notMem_erase _ _ hpend
        · exact h.apart i hi (Finset.mem_of_mem_erase hpend)
      · rcases Finset.mem_insert.mp hi with rfl | hi
        · exact hstored
        · exact h.stored i hi
    exact hscan hmarked rfl heq
  | @fetches idx spec data todo byte hpoint hbyte hs hst =>
    simp only [ProcOk, hpoint] at hok
    obtain ⟨hat, -, hread⟩ := hok
    rw [hs, hst]
    exact ⟨h, ⟨hat, read_next htiles hat hread hbyte⟩, .of_same rfl⟩

theorem start_got_subset {b : StartAction} (hstep : startStep sha1 b s st = some (s', st')) :
    s.tracker.got ⊆ s'.tracker.got := by
  have hscan : ∀ {s₁ : Session} {todo : List ℕ}, s.tracker.got ⊆ s₁.tracker.got →
      scanFrom s₁ st todo = (s', st') → s.tracker.got ⊆ s'.tracker.got := by
    intro s₁ todo hsub heq
    have hs : Undisturbed s₁ (scanFrom s₁ st todo).1 ∧ ProcOk sha1 (fun _ => []) _ _ _ :=
      scanFrom_spec rfl
    rw [heq] at hs
    rw [hs.1.marks.got]
    exact hsub
  cases startTurn_of_step hstep with
  | ends hs => rw [hs]
  | checks hpoint heq =>
    obtain ⟨hs, -⟩ := checkResume_spec s st
    rw [heq] at hs
    rw [hs.marks.got]
  | scans todo hpoint heq => exact hscan (Finset.Subset.refl _) heq
  | marks hpoint hverify heq => exact hscan (Finset.subset_insert _ _) heq
  | fetches hpoint hbyte hs => rw [hs]

theorem procOk_stable {p : Proc} (h : ProcOk sha1 content specs s p)
    (hkeep : KeepsRight content specs s s') : ProcOk sha1 content specs s' p := by
  cases p with
  | peer t => exact h
  | starter st =>
    cases hp : st.point with
    | read index spec data todo =>
      simp only [ProcOk, hp] at h ⊢
      obtain ⟨hat, hlen, hread⟩ := h
      refine ⟨hat, hlen, fun k byte hk hright => ?_⟩
      have hlt : k < data.length := (List.getElem?_eq_some_iff.mp hk).1
      exact hkeep index k spec byte hat (by omega) hright (hread k byte hk hright)
    | _ => simp only [ProcOk, hp]

theorem procOk_of_fresh {p : Proc} (h : Fresh p) : ProcOk sha1 content specs s p := by
  cases p with
  | peer t =>
    obtain ⟨addr, given, rates, rfl⟩ := h
    exact newTask_taskOk specs addr given rates
  | starter st =>
    have hp : st.point = .starting := h
    exact procOk_of_point fun _ _ _ _ hread => by rw [hp] at hread; cases hread

/-- New processes have not begun; nothing else is asked of a run. -/
def Spawning (_ : Config Session Proc) : Move Proc SessionAction → Prop
  | .spawn p => Fresh p
  | .act _ _ => True

theorem Verified.run {tr : Tracker} {storage : Bytes} {c : Config Session Proc}
    (htiles : Tiles tr.specs size) (honly : OnlyContent sha1 content tr.specs)
    (hcount : tr.specs.length = tr.pieceCount.toNat) (hsize : storage.length = size)
    (hnone : tr.got = ∅)
    (hreach : Reach (program sha1 kind) Spawning ⟨newSession tr storage, []⟩ c) :
    Verified sha1 content tr.specs size c.shared ∧
      ∀ p ∈ c.procs, ProcOk sha1 content tr.specs c.shared p := by
  have hempty : ∀ i, i ∉ (newSession tr storage).tracker.got := fun i hi => by
    rw [show (newSession tr storage).tracker.got = ∅ from hnone] at hi
    cases hi
  refine hreach.rely_guarantee (R := KeepsRight content tr.specs)
    ⟨rfl, hcount, hsize, fun i hi => absurd hi (hempty i), fun i hi => absurd hi (hempty i)⟩
    (fun p hp => by cases hp) (fun c p _ hfresh => procOk_of_fresh hfresh) ?_
    (fun s s' q _ hkeep hok => procOk_stable hok hkeep)
  intro c i a p s p' _ _ hgood hok hstep
  cases p with
  | peer t =>
    obtain ⟨b, t', -, rfl, htask⟩ := program_peer hstep
    exact hgood.turn htiles honly hok (turn_of_step htask)
  | starter st =>
    obtain ⟨b, st', -, rfl, hstart⟩ := program_starter hstep
    exact hgood.start htiles honly hok hstart

theorem Stored.flatRead_eq {i : ℕ} (h : Stored sha1 content specs s i) :
    ∃ spec, specs[i]? = some spec ∧ verifyPiece sha1 (content i) spec.hash = true ∧
      flatRead s.storage spec.offset.toNat spec.length.toNat = content i := by
  obtain ⟨spec, hat, hverify, hlen, hbytes⟩ := h
  refine ⟨spec, hat, hverify, List.ext_getElem? fun k => ?_⟩
  by_cases hk : k < (content i).length
  · rw [flatRead, List.getElem?_take_of_lt (by omega), List.getElem?_drop,
      hbytes k _ (List.getElem?_eq_getElem hk), List.getElem?_eq_getElem hk]
  · have hshort : (flatRead s.storage spec.offset.toNat spec.length.toNat).length ≤ k := by
      have : (flatRead s.storage spec.offset.toNat spec.length.toNat).length ≤ spec.length.toNat :=
        List.length_take_le _ _
      omega
    rw [List.getElem?_eq_none hshort, List.getElem?_eq_none (by omega)]

/-- The first pieces, one after the other, are the beginning of the storage. -/
theorem take_eq_flatMap {pieceLength totalLength : ℤ} (raw : Bytes) {storage : Bytes} {n : ℕ}
    (h1 : 1 ≤ pieceLength)
    (hfull : ∀ i, i + 1 < n → ((i + 1 : ℕ) : ℤ) * pieceLength ≤ totalLength)
    (hread : ∀ i < n, flatRead storage (specAt pieceLength totalLength raw i).offset.toNat
      (specAt pieceLength totalLength raw i).length.toNat = content i) :
    storage.take (min ((n : ℤ) * pieceLength) totalLength).toNat = (List.range n).flatMap content := by
  induction n with
  | zero =>
    rw [Int.toNat_of_nonpos (by omega)]
    rfl
  | succ n ih =>
    have hrest := ih (fun i hi => hfull i (by omega)) fun i hi => hread i (by omega)
    have hnext := hread n (by omega)
    have hn : (0 : ℤ) ≤ n * pieceLength := Int.mul_nonneg (by omega) (by omega)
    have hstep : ((n + 1 : ℕ) : ℤ) * pieceLength = n * pieceLength + pieceLength := by
      push_cast
      ring
    have hle : (n : ℤ) * pieceLength ≤ max totalLength 0 := by
      cases n with
      | zero => omega
      | succ n =>
        have := hfull n (by omega)
        omega
    simp only [specAt, flatRead] at hnext
    rw [List.range_succ, List.flatMap_append, List.flatMap_singleton, ← hrest, ← hnext, hstep]
    have hlen : (min (n * pieceLength + pieceLength) totalLength).toNat =
        (min ((n : ℤ) * pieceLength) totalLength).toNat +
          (min pieceLength (totalLength - n * pieceLength)).toNat := by omega
    rw [hlen, List.take_add]
    by_cases ht : totalLength < 0
    · rw [show (min pieceLength (totalLength - n * pieceLength)).toNat = 0 by omega]
      rfl
    · rw [show (min ((n : ℤ) * pieceLength) totalLength).toNat = ((n : ℤ) * pieceLength).toNat by omega]

/-- In every reachable state the pieces that are had are some of the torrent's, none of them is
pending, and the storage holds each of them; once all are had it holds the whole content. -/
theorem had_pieces_verified {pieceLength totalLength : ℤ} {raw storage : Bytes} {tr : Tracker}
    {c : Config Session Proc} (htr : init pieceLength totalLength raw = some tr)
    (hsize : storage.length = totalLength.toNat) (honly : OnlyContent sha1 content tr.specs)
    (hreach : Reach (program sha1 kind) Spawning ⟨newSession tr storage, []⟩ c) :
    c.shared.tracker.got ⊆ Finset.range c.shared.tracker.pieceCount.toNat ∧
      Disjoint c.shared.tracker.got c.shared.tracker.pending ∧
      (∀ i ∈ c.shared.tracker.got, ∃ spec, c.shared.tracker.specs[i]? = some spec ∧
        verifyPiece sha1 (flatRead c.shared.storage spec.offset.toNat spec.length.toNat) spec.hash =
          true) ∧
      (c.shared.tracker.isComplete → (∀ i < c.shared.tracker.pieceCount.toNat, i ∈ c.shared.tracker.got) ∧
        (1 ≤ pieceLength →
          c.shared.storage = (List.range c.shared.tracker.pieceCount.toNat).flatMap content)) := by
  obtain ⟨hgood, -⟩ := Verified.run (init_tiles htr) honly (specs_length htr) hsize
    (specs_eq_of_init htr).2.2.2.1 hreach
  have hread : ∀ i ∈ c.shared.tracker.got, ∃ spec, tr.specs[i]? = some spec ∧
      verifyPiece sha1 (content i) spec.hash = true ∧
        flatRead c.shared.storage spec.offset.toNat spec.length.toNat = content i :=
    fun i hi => (hgood.stored i hi).flatRead_eq
  have hrange : c.shared.tracker.got ⊆ Finset.range c.shared.tracker.pieceCount.toNat := by
    intro i hi
    obtain ⟨spec, hat, -, -⟩ := hread i hi
    rw [Finset.mem_range, ← hgood.count]
    exact (List.getElem?_eq_some_iff.mp hat).1
  refine ⟨hrange, Finset.disjoint_left.mpr hgood.apart, fun i hi => ?_, fun hcomplete => ?_⟩
  · obtain ⟨spec, hat, hverify, heq⟩ := hread i hi
    refine ⟨spec, by rw [hgood.specs_eq, hat], ?_⟩
    rw [heq]
    exact hverify
  · have hall : c.shared.tracker.got = Finset.range c.shared.tracker.pieceCount.toNat := by
      refine Finset.eq_of_subset_of_card_le hrange ?_
      have hcard : (c.shared.tracker.got.card : ℤ) = c.shared.tracker.pieceCount := hcomplete
      rw [Finset.card_range]
      omega
    refine ⟨fun i hi => by rw [hall]; exact Finset.mem_range.mpr hi, fun h1 => ?_⟩
    have hsame : c.shared.tracker.pieceCount.toNat = tr.pieceCount.toNat := by
      rw [← hgood.count, specs_length htr]
    by_cases h0 : 0 ≤ totalLength
    · obtain ⟨hc0, hc1, hc2⟩ := pieceCount_bounds h1 h0 htr
      have hspecs := init_specs h1 h0 htr
      have htake : c.shared.storage.take
          (min ((tr.pieceCount.toNat : ℤ) * pieceLength) totalLength).toNat =
            (List.range tr.pieceCount.toNat).flatMap content := by
        refine take_eq_flatMap raw h1 (fun i hi => ?_) fun i hi => ?_
        · have hle : ((i + 1 : ℕ) : ℤ) * pieceLength ≤ (tr.pieceCount - 1) * pieceLength :=
            Int.mul_le_mul_of_nonneg_right (by omega) (by omega)
          omega
        · obtain ⟨spec, hat, -, heq⟩ := hread i (by rw [hall, hsame]; exact Finset.mem_range.mpr hi)
          rw [hspecs, List.getElem?_map, List.getElem?_range hi] at hat
          rw [← heq, ← Option.some.inj hat]
      rw [hsame, ← htake, List.take_of_length_le]
      rw [hgood.size_eq, Int.toNat_of_nonneg hc0]
      omega
    · have hneg := pieceCount_nonpos htr h1 (by omega)
      have hnil : c.shared.storage = [] := by
        rw [← List.length_eq_zero_iff, hgood.size_eq]
        omega
      rw [hsame, hnil, Int.toNat_of_nonpos hneg]
      rfl

theorem only_sevens {tr : Tracker} (hone : tr.specs = [⟨0, 0, 20, List.replicate 20 7⟩]) :
    OnlyContent id (fun _ => List.replicate 20 7) tr.specs := by
  intro i spec hi data hverify
  rw [hone] at hi
  obtain rfl := List.mem_singleton.mp (List.mem_of_getElem? hi)
  obtain rfl : data = List.replicate 20 7 := by simpa [verifyPiece] using hverify
  exact ⟨rfl, rfl⟩

def download (piece : Bytes) : List (Move Proc SessionAction) :=
  [.spawn (.peer (newTask ⟨[127, 0, 0, 1], 6881⟩ true none)), .act 0 (.peer .starts),
    .act 0 (.peer (.returns 0)), .act 0 (.peer (.receives (.bitfield [128]) 0)),
    .act 0 (.peer (.returns 0)), .act 0 (.peer (.receives .unchoke 0)), .act 0 (.peer (.returns 0)),
    .act 0 (.peer (.receives (.piece 0 0 piece) 0)), .act 0 (.peer (.stores 3)),
    .act 0 (.peer (.returns 0))]

theorem had_pieces_verified_download :
    ∃ tr c, init 20 20 (List.replicate 20 7) = some tr ∧
      run (program id .files) ⟨newSession tr (List.replicate 20 0), []⟩
        (download (List.replicate 20 7)) = some c ∧
      c.shared.tracker.isComplete ∧ c.shared.storage = List.replicate 20 7 := by
  obtain ⟨tr, htr⟩ : ∃ tr, init 20 20 (List.replicate 20 7) = some tr := ⟨_, rfl⟩
  have hone : tr.specs = [⟨0, 0, 20, List.replicate 20 7⟩] ∧ tr.pieceCount = 1 := by
    obtain rfl := Option.some.inj htr
    decide
  obtain ⟨c, hrun, hcomplete, hcount⟩ : ∃ c, run (program id .files)
      ⟨newSession tr (List.replicate 20 0), []⟩ (download (List.replicate 20 7)) = some c ∧
        c.shared.tracker.isComplete ∧ c.shared.tracker.pieceCount = 1 := by
    obtain rfl := Option.some.inj htr
    exact ⟨_, rfl, by decide +kernel, by decide +kernel⟩
  have honly : OnlyContent id (fun _ => List.replicate 20 7) tr.specs := by
    intro i spec hi data hverify
    rw [hone.1] at hi
    obtain rfl := List.mem_singleton.mp (List.mem_of_getElem? hi)
    obtain rfl : data = List.replicate 20 7 := by simpa [verifyPiece] using hverify
    exact ⟨rfl, rfl⟩
  have hreach : Reach (program id .files) Spawning ⟨newSession tr (List.replicate 20 0), []⟩ c := by
    refine reach_run (allowed_of_forall fun m hm c => ?_) hrun
    rcases List.mem_cons.mp hm with rfl | hm
    · exact ⟨_, _, _, rfl⟩
    · cases m with
      | spawn p => simp at hm
      | act i a => trivial
  obtain ⟨-, -, -, hall⟩ := had_pieces_verified htr (by decide) honly hreach
  refine ⟨tr, c, htr, hrun, hcomplete, ?_⟩
  rw [(hall hcomplete).2 (by decide), hcount]
  rfl

end VerifiedPieces
