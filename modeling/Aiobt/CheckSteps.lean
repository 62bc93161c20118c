import Aiobt.ResumeCheck

/-! # A check in its steps

A call of `start` with nothing else running, from one await point to the next: its scan of a flat
storage comes to what `check_resume` does at once. -/
namespace CheckSteps

open ByteStrings FlatStore PieceTracker PieceEngine SessionTasks ResumeCheck
open VerifiedPieces (afterCheck_undisturbed checkResume_spec)
open TrackerAccounting (sizeOf afterCheck_bytes)
open CreatedTorrents (checkPiece)

def flatFetch (storage : Bytes) (offset length : ℤ) : Bytes :=
  if 0 ≤ offset then flatRead storage offset.toNat length.toNat else []

/-- A read returns exactly if the surroundings do not make it raise, and the call is not
cancelled. -/
def Agrees (raises : ℕ → Option ReadError) (b : StartAction) (st : Starter) : Prop :=
  match b, st.point with
  | .returns, .read idx _ _ _ => raises idx = none
  | .fails, .read idx _ _ _ => raises idx ≠ none
  | .raises, _ => False
  | _, _ => True

/-- The steps of a call of `start` in which the reads raise that the surroundings make raise. -/
inductive Checks (sha1 : Bytes → Bytes) (e : Surroundings) :
    Session → Starter → Session → Starter → Prop
  | refl (s : Session) (st : Starter) : Checks sha1 e s st s st
  | step {s s₁ s' : Session} {st st₁ st' : Starter} (b : StartAction) : Agrees e.raises b st →
      startStep sha1 b s st = some (s₁, st₁) → Checks sha1 e s₁ st₁ s' st' →
      Checks sha1 e s st s' st'

section
variable {sha1 : Bytes → Bytes} {e : Surroundings} {s s' s₁ : Session} {st st' st₁ : Starter}

theorem Checks.trans (h : Checks sha1 e s st s₁ st₁) (k : Checks sha1 e s₁ st₁ s' st') :
    Checks sha1 e s st s' st' := by
  induction h with
  | refl s st => exact k
  | step b hagrees hstep _ ih => exact .step b hagrees hstep (ih k)

variable {storage data : Bytes} {offset length : ℤ}

theorem fetchByte_eq (h : data <+: flatFetch storage offset length) :
    fetchByte storage offset length data = (flatFetch storage offset length)[data.length]? := by
  unfold fetchByte
  unfold flatFetch at h ⊢
  by_cases hoffset : 0 ≤ offset
  · rw [if_pos hoffset, flatRead, List.getElem?_take, List.getElem?_drop]
    by_cases hlt : (data.length : ℤ) < length
    · rw [if_pos ⟨hlt, by omega⟩, if_pos (by omega)]
      congr 1
      omega
    · rw [if_neg fun hboth => hlt hboth.1, if_neg (by omega)]
  · rw [if_neg hoffset] at h ⊢
    obtain rfl := List.prefix_nil.mp h
    rw [if_neg fun hboth => hoffset (by simpa using hboth.2)]
    rfl

theorem fetch_next (h : data <+: flatFetch storage offset length) :
    (∀ byte, fetchByte storage offset length data = some byte →
      data ++ [byte] <+: flatFetch storage offset length) ∧
    (fetchByte storage offset length data = none → data = flatFetch storage offset length) := by
  rw [fetchByte_eq h]
  obtain ⟨rest, hrest⟩ := h
  rw [← hrest, List.getElem?_append_right (Nat.le_refl _), Nat.sub_self]
  cases rest with
  | nil => exact ⟨fun byte hbyte => (by cases hbyte), fun _ => (List.append_nil _).symm⟩
  | cons b rest =>
    refine ⟨fun byte hbyte => ?_, fun hnone => (by cases hnone)⟩
    obtain rfl : b = byte := Option.some.inj hbyte
    exact ⟨rest, by rw [List.append_assoc, List.singleton_append]⟩

def scan (sha1 : Bytes → Bytes) (e : Surroundings) (todo : List ℕ) (t : Tracker) : Tracker :=
  todo.foldl (fun t idx => checkPiece sha1 (e.read idx) t idx) t

def finish (s : Session) (t : Tracker) (st : Starter) : Session :=
  (afterCheck { s with tracker := t, bytesDownloaded := sizeOf t t.got } st).1

/-- The session that a call of `start` leaves behind before it emits its last event. -/
def outcome (sha1 : Bytes → Bytes) (e : Surroundings) (s : Session) (st : Starter) : Session :=
  match st.point with
  | .starting => (afterCheck (checkResume sha1 e s).2 st).1
  | .emitChecking todo => finish s (scan sha1 e todo s.tracker) st
  | .read idx _ _ todo => finish s (scan sha1 e (idx :: todo) s.tracker) st
  | .emitStarted => s
  | .ended => s

/-- A call of `start` before the end of its scan, in the surroundings `e`. -/
structure Fits (e : Surroundings) (s : Session) (st : Starter) : Prop where
  lengths : s.tracker.specs.length = s.tracker.pieceCount.toNat
  stored : e.stored = flatFetch s.storage
  starting : st.point = .starting → s.state = .stopped ∧ s.resumeChecked = false ∧
    e.claimed = .ok (st.haveFromResume, st.uploadedFromResume)
  reading : ∀ idx spec data todo, st.point = .read idx spec data todo →
    s.tracker.specs[idx]? = some spec ∧ data <+: e.stored spec.offset spec.length

theorem afterCheck_session (s : Session) (st st' : Starter) :
    (afterCheck s st).1 = (afterCheck s st').1 := by
  unfold afterCheck
  split <;> rfl

theorem finish_starter (s : Session) (t : Tracker) (st st' : Starter) :
    finish s t st = finish s t st' := afterCheck_session _ st st'

theorem afterCheck_outcome (sha1 : Bytes → Bytes) (st : Starter)
    (hlen : s.tracker.specs.length = s.tracker.pieceCount.toNat)
    (hstored : e.stored = flatFetch s.storage) :
    outcome sha1 e (afterCheck s st).1 (afterCheck s st).2 = (afterCheck s st).1 ∧
      Fits e (afterCheck s st).1 (afterCheck s st).2 := by
  obtain ⟨hsame, hpoint⟩ := afterCheck_undisturbed s st
  refine ⟨by rw [outcome, hpoint], ?_, ?_, fun hstart => ?_, fun _ _ _ _ hread => ?_⟩
  · rw [hsame.marks.specs, hsame.marks.pieceCount]
    exact hlen
  · rw [hsame.storage]
    exact hstored
  · cases hpoint.symm.trans hstart
  · cases hpoint.symm.trans hread

theorem scanFrom_outcome (sha1 : Bytes → Bytes) (st : Starter) (todo : List ℕ)
    (hlen : s.tracker.specs.length = s.tracker.pieceCount.toNat)
    (hstored : e.stored = flatFetch s.storage) :
    outcome sha1 e (scanFrom s st todo).1 (scanFrom s st todo).2 =
        finish s (scan sha1 e todo s.tracker) st ∧
      Fits e (scanFrom s st todo).1 (scanFrom s st todo).2 := by
  induction todo with
  | nil => exact afterCheck_outcome sha1 _ hlen hstored
  | cons idx todo ih =>
    unfold scanFrom
    by_cases hout : s.tracker.pieceCount ≤ idx
    · rw [if_pos hout]
      have hskip : checkPiece sha1 (e.read idx) s.tracker idx = s.tracker := by
        rw [checkPiece, if_pos hout]
      rw [scan, List.foldl_cons, hskip]
      exact ih
    · rw [if_neg hout]
      obtain ⟨spec, hspec⟩ : ∃ spec, s.tracker.specs[idx]? = some spec :=
        ⟨_, List.getElem?_eq_getElem (show idx < s.tracker.specs.length by omega)⟩
      rw [hspec]
      refine ⟨finish_starter _ _ _ _, hlen, hstored, fun hpoint => (by cases hpoint), ?_⟩
      intro _ _ _ _ hpoint
      cases hpoint
      exact ⟨hspec, List.nil_prefix⟩

theorem checkPieces_outcome (st : Starter) (pieces : Finset ℕ)
    (hlen : s.tracker.specs.length = s.tracker.pieceCount.toNat)
    (hstored : e.stored = flatFetch s.storage)
    (h : (if pieces = ∅ then afterCheck s st
      else ({ s with state := .checking, events := s.events ++ [.stateChanged s.state .checking] },
        { st with point := .emitChecking (pieces.sort (· ≤ ·)) })) = (s', st')) :
    outcome sha1 e s' st' = (afterCheck (checkPieces sha1 e pieces s) st).1 ∧ Fits e s' st' := by
  by_cases hempty : pieces = ∅
  · rw [if_pos hempty] at h
    rw [checkPieces, if_pos hempty]
    have hafter := afterCheck_outcome sha1 st hlen hstored
    rw [h] at hafter ⊢
    exact hafter
  · rw [if_neg hempty] at h
    obtain ⟨rfl, rfl⟩ := Prod.mk.inj h
    rw [checkPieces, if_neg hempty]
    exact ⟨afterCheck_session _ _ _, hlen, hstored, fun hpoint => (by cases hpoint),
      fun _ _ _ _ hpoint => (by cases hpoint)⟩

theorem checkResume_outcome (hfits : Fits e s st) (hpoint : st.point = .starting) :
    outcome sha1 e (SessionTasks.checkResume s st).1 (SessionTasks.checkResume s st).2 =
        outcome sha1 e s st ∧
      Fits e (SessionTasks.checkResume s st).1 (SessionTasks.checkResume s st).2 := by
  obtain ⟨-, hfirst, hclaimed⟩ := hfits.starting hpoint
  rw [outcome.eq_def sha1 e s st, hpoint]
  simp only [ResumeCheck.checkResume, SessionTasks.checkResume, hfirst, Bool.false_eq_true, if_false,
    hclaimed]
  exact checkPieces_outcome st _ hfits.lengths hfits.stored rfl

theorem checkPiece_returned (sha1 : Bytes → Bytes) {t : Tracker} {idx : ℕ} {spec : PieceSpec}
    (hlen : t.specs.length = t.pieceCount.toNat) (hspec : t.specs[idx]? = some spec)
    (hraises : e.raises idx = none) :
    checkPiece sha1 (e.read idx) t idx =
      if ((e.stored spec.offset spec.length).length : ℤ) = spec.length ∧
          verifyPiece sha1 (e.stored spec.offset spec.length) spec.hash then t.markHave idx else t := by
  have hlt := (List.getElem?_eq_some_iff.mp hspec).1
  rw [checkPiece, if_neg (by omega), hspec]
  simp only [Surroundings.read, hraises]

theorem checkPiece_raised {t : Tracker} {idx : ℕ} (hraises : e.raises idx ≠ none) :
    checkPiece sha1 (e.read idx) t idx = t := by
  obtain ⟨error, herror⟩ := Option.ne_none_iff_exists'.mp hraises
  unfold checkPiece
  split
  · rfl
  · split
    · rfl
    · simp only [Surroundings.read, herror]

theorem step_outcome {b : StartAction} (hfits : Fits e s st) (hagrees : Agrees e.raises b st)
    (h : startStep sha1 b s st = some (s', st')) :
    outcome sha1 e s' st' = outcome sha1 e s st ∧ Fits e s' st' := by
  cases b with
  | starts =>
    simp only [startStep] at h
    split at h
    · next hpoint =>
      have hstate := (hfits.starting hpoint).1
      rw [if_neg (by rw [hstate]; rintro (hs | hs) <;> cases hs)] at h
      obtain ⟨rfl, rfl⟩ := Prod.mk.inj (Option.some.inj h)
      exact checkResume_outcome hfits hpoint
    · cases h
  | returns =>
    simp only [startStep] at h
    split at h
    · next todo hpoint =>
      obtain ⟨rfl, rfl⟩ := Prod.mk.inj (Option.some.inj h)
      rw [outcome.eq_def sha1 e s st, hpoint]
      exact scanFrom_outcome sha1 st todo hfits.lengths hfits.stored
    · next idx spec data todo hpoint =>
      obtain ⟨hspec, hdata⟩ := hfits.reading idx spec data todo hpoint
      have hraises : e.raises idx = none := by simpa only [Agrees, hpoint] using hagrees
      rw [hfits.stored] at hdata
      split at h
      · cases h
      · next hover =>
        have hall := (fetch_next hdata).2 (not_not.mp hover)
        rw [← hfits.stored] at hall
        have hpiece := checkPiece_returned sha1 hfits.lengths hspec hraises
        rw [outcome.eq_def sha1 e s st, hpoint]
        simp only [scan, List.foldl_cons, hpiece, ← hall]
        split at h
        · next hgood =>
          obtain ⟨rfl, rfl⟩ := Prod.mk.inj (Option.some.inj h)
          rw [if_pos hgood]
          exact scanFrom_outcome sha1 st todo hfits.lengths hfits.stored
        · next hbad =>
          obtain ⟨rfl, rfl⟩ := Prod.mk.inj (Option.some.inj h)
          rw [if_neg hbad]
          exact scanFrom_outcome sha1 st todo hfits.lengths hfits.stored
    · next hpoint =>
      obtain ⟨rfl, rfl⟩ := Prod.mk.inj (Option.some.inj h)
      rw [outcome.eq_def sha1 e s st, hpoint]
      exact ⟨rfl, hfits.lengths, hfits.stored, fun hstart => (by cases hstart),
        fun _ _ _ _ hread => (by cases hread)⟩
    · cases h
  | fails =>
    simp only [startStep] at h
    split at h
    · next idx spec data todo hpoint =>
      have hraises : e.raises idx ≠ none := by simpa only [Agrees, hpoint] using hagrees
      obtain ⟨rfl, rfl⟩ := Prod.mk.inj (Option.some.inj h)
      rw [outcome.eq_def sha1 e s st, hpoint]
      simp only [scan, List.foldl_cons, checkPiece_raised hraises]
      exact scanFrom_outcome sha1 st todo hfits.lengths hfits.stored
    · cases h
  | fetches =>
    simp only [startStep] at h
    split at h
    · next idx spec data todo hpoint =>
      obtain ⟨hspec, hdata⟩ := hfits.reading idx spec data todo hpoint
      obtain ⟨byte, hbyte, heq⟩ := Option.map_eq_some_iff.mp h
      obtain ⟨rfl, rfl⟩ := Prod.mk.inj heq
      rw [outcome.eq_def sha1 e s st, hpoint]
      refine ⟨finish_starter _ _ _ _, hfits.lengths, hfits.stored, fun hstart => (by cases hstart), ?_⟩
      intro _ _ _ _ hread
      cases hread
      refine ⟨hspec, ?_⟩
      rw [hfits.stored] at hdata ⊢
      exact (fetch_next hdata).1 byte hbyte
    · cases h
  | raises => cases hagrees

theorem Checks.outcome (h : Checks sha1 e s st s' st') (hfits : Fits e s st) :
    outcome sha1 e s' st' = outcome sha1 e s st ∧ Fits e s' st' := by
  induction h with
  | refl s st => exact ⟨rfl, hfits⟩
  | step b hagrees hstep _ ih =>
    obtain ⟨hsame, hfits'⟩ := step_outcome hfits hagrees hstep
    obtain ⟨hsame', hend⟩ := ih hfits'
    exact ⟨hsame'.trans hsame, hend⟩

theorem read_ends {idx : ℕ} {spec : PieceSpec} {data : Bytes} {todo : List ℕ} (hfits : Fits e s st)
    (hpoint : st.point = .read idx spec data todo) :
    ∃ t st', t.specs = s.tracker.specs ∧ t.pieceCount = s.tracker.pieceCount ∧
      Checks sha1 e s st (scanFrom { s with tracker := t } st' todo).1
        (scanFrom { s with tracker := t } st' todo).2 := by
  cases hraises : e.raises idx with
  | some error =>
    refine ⟨s.tracker, st, rfl, rfl, .step .fails ?_ ?_ (.refl _ _)⟩
    · simp [Agrees, hpoint, hraises]
    · simp only [startStep, hpoint]
  | none =>
    induction hleft : (e.stored spec.offset spec.length).length - data.length
      using Nat.strong_induction_on generalizing data st with
    | _ left ih =>
      obtain ⟨hspec, hdata⟩ := hfits.reading idx spec data todo hpoint
      cases hbyte : fetchByte s.storage spec.offset spec.length data with
      | none =>
        have hagrees : Agrees e.raises .returns st := by simpa only [Agrees, hpoint] using hraises
        by_cases hgood : (data.length : ℤ) = spec.length ∧ verifyPiece sha1 data spec.hash
        · refine ⟨s.tracker.markHave idx, st, rfl, rfl, .step .returns hagrees ?_ (.refl _ _)⟩
          simp only [startStep, hpoint, hbyte, ne_eq, not_true_eq_false, if_false, if_pos hgood]
        · refine ⟨s.tracker, st, rfl, rfl, .step .returns hagrees ?_ (.refl _ _)⟩
          simp only [startStep, hpoint, hbyte, ne_eq, not_true_eq_false, if_false, if_neg hgood]
      | some byte =>
        have hagrees : Agrees e.raises .fetches st := by simp only [Agrees]
        have hstep : startStep sha1 .fetches s st =
            some (s, { st with point := .read idx spec (data ++ [byte]) todo }) := by
          simp only [startStep, hpoint, hbyte, Option.map_some]
        obtain ⟨-, hfits'⟩ := step_outcome hfits hagrees hstep
        have hlonger := (hfits'.reading idx spec _ todo rfl).2.length_le
        rw [List.length_append, List.length_singleton] at hlonger
        obtain ⟨t, st', hspecs, hcount, hchecks⟩ :=
          ih _ (by rw [List.length_append, List.length_singleton]; omega) hfits' rfl rfl
        exact ⟨t, st', hspecs, hcount, .step .fetches hagrees hstep hchecks⟩

theorem scan_ends (sha1 : Bytes → Bytes) (st : Starter) (todo : List ℕ)
    (hlen : s.tracker.specs.length = s.tracker.pieceCount.toNat)
    (hstored : e.stored = flatFetch s.storage) : ∃ s' st',
      Checks sha1 e (scanFrom s st todo).1 (scanFrom s st todo).2 s' st' ∧
        st'.point = .emitStarted := by
  induction todo generalizing s st with
  | nil => exact ⟨_, _, .refl _ _, (afterCheck_undisturbed _ st).2⟩
  | cons idx todo ih =>
    by_cases hout : s.tracker.pieceCount ≤ idx
    · rw [scanFrom, if_pos hout]
      exact ih _ hlen hstored
    · obtain ⟨spec, hspec⟩ : ∃ spec, s.tracker.specs[idx]? = some spec :=
        ⟨_, List.getElem?_eq_getElem (show idx < s.tracker.specs.length by omega)⟩
      have hfits := (scanFrom_outcome sha1 st (idx :: todo) hlen hstored).2
      have hscan : scanFrom s st (idx :: todo) = (s, { st with point := .read idx spec [] todo }) := by
        rw [scanFrom, if_neg hout, hspec]
      rw [hscan] at hfits ⊢
      obtain ⟨t, st₁, hspecs, hcount, hread⟩ := read_ends hfits rfl
      have hlen' : t.specs.length = t.pieceCount.toNat := by
        rw [hspecs, hcount]
        exact hlen
      obtain ⟨s', st', hrest, hend⟩ : ∃ s' st',
          Checks sha1 e (scanFrom { s with tracker := t } st₁ todo).1
            (scanFrom { s with tracker := t } st₁ todo).2 s' st' ∧ st'.point = .emitStarted :=
        ih _ hlen' hstored
      exact ⟨s', st', hread.trans hrest, hend⟩

/-- Whichever reads raise, a call of `start` comes to the end of its check, and it leaves the
session as `check_resume` and the rest of `start` do at once. -/
theorem start_checks {pieceLength totalLength : ℤ} {raw storage : Bytes} {tr : Tracker}
    (htr : init pieceLength totalLength raw = some tr) (hstored : e.stored = flatFetch storage)
    (hpoint : st.point = .starting)
    (hclaimed : e.claimed = .ok (st.haveFromResume, st.uploadedFromResume)) :
    (∃ s' st', Checks sha1 e (newSession tr storage) st s' st' ∧ st'.point = .emitStarted) ∧
      ∀ s' st', Checks sha1 e (newSession tr storage) st s' st' → st'.point = .emitStarted →
        s' = (afterCheck (checkResume sha1 e (newSession tr storage)).2 st).1 := by
  have hfits : Fits e (newSession tr storage) st :=
    ⟨specs_length htr, hstored, fun _ => ⟨rfl, rfl, hclaimed⟩,
      fun _ _ _ _ hread => (by cases hpoint.symm.trans hread)⟩
  constructor
  · have hstarts : startStep sha1 .starts (newSession tr storage) st =
        some (SessionTasks.checkResume (newSession tr storage) st) := by
      simp [startStep, hpoint, newSession]
    have hagrees : Agrees e.raises .starts st := by simp only [Agrees]
    obtain ⟨-, hnext⟩ := checkResume_spec (newSession tr storage) st
    generalize SessionTasks.checkResume (newSession tr storage) st = next at hstarts hnext
    obtain ⟨-, hfits'⟩ := step_outcome hfits hagrees hstarts
    rcases hnext with hover | ⟨todo, hscans⟩
    · exact ⟨_, _, .step .starts hagrees hstarts (.refl _ _), hover⟩
    · obtain ⟨s', st', hrest, hend⟩ := scan_ends sha1 next.2 todo hfits'.lengths hfits'.stored
      refine ⟨s', st', .step .starts hagrees hstarts (.step .returns ?_ ?_ hrest), hend⟩
      · simp only [Agrees, hscans]
      · simp only [startStep, hscans]
  · intro s' st' hchecks hend
    obtain ⟨hsame, -⟩ := hchecks.outcome hfits
    rw [outcome, hend, outcome, hpoint] at hsame
    exact hsame

theorem start_finds_valid {pieceLength totalLength : ℤ} {raw storage : Bytes} {tr : Tracker}
    (htr : init pieceLength totalLength raw = some tr) (hstored : e.stored = flatFetch storage)
    (hpoint : st.point = .starting)
    (hclaimed : e.claimed = .ok (st.haveFromResume, st.uploadedFromResume))
    (hchecks : Checks sha1 e (newSession tr storage) st s' st') (hend : st'.point = .emitStarted) :
    (∀ i, i ∈ s'.tracker.got ↔ Candidate e tr i ∧ Good sha1 e tr i) ∧
      s'.bytesDownloaded = sizeOf tr s'.tracker.got := by
  obtain ⟨-, hgot, hbytes⟩ := findsValid_of_claimed sha1 storage (specs_length htr)
    (specs_eq_of_init htr).2.2.2.1 hclaimed
  rw [(start_checks htr hstored hpoint hclaimed).2 s' st' hchecks hend]
  obtain ⟨hsame, -⟩ := afterCheck_undisturbed (checkResume sha1 e (newSession tr storage)).2 st
  rw [hsame.marks.got, afterCheck_bytes]
  exact ⟨hgot, hbytes⟩

end

end CheckSteps
