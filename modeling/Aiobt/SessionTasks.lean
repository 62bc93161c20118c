import Aiobt.InterleavedProcesses
import Aiobt.PieceEngine

/-! # The tasks of one session

Any number of `run_peer` tasks and of `TorrentHandle.start` calls with their `check_resume` share
a session. -/
namespace SessionTasks

open ByteStrings PieceTracker PieceEngine InterleavedProcesses

/-- Where a call of `start` waits; `todo` are the pieces that are still to be checked. -/
inductive StartPoint where
  | starting
  | emitChecking (todo : List ℕ)
  | read (index : ℕ) (spec : PieceSpec) (data : Bytes) (todo : List ℕ)
  | emitStarted
  | ended
  deriving DecidableEq

structure Starter where
  haveFromResume : Finset ℕ
  uploadedFromResume : ℤ
  point : StartPoint

def afterCheck (s : Session) (st : Starter) : Session × Starter :=
  if s.tracker.isComplete then
    ({ s with
        state := .seeding
        doneEvent := true
        events := s.events ++ [.stateChanged s.state .seeding] }, { st with point := .emitStarted })
  else
    ({ s with
        state := .downloading
        events := s.events ++ [.stateChanged s.state .downloading] },
      { st with point := .emitStarted })

/-- The loop of `check_resume` over the pieces that are left. -/
def scanFrom (s : Session) (st : Starter) : List ℕ → Session × Starter
  | [] =>
    afterCheck { s with bytesDownloaded :=
      ∑ i ∈ s.tracker.got, ((s.tracker.specs[i]?).map PieceSpec.length).getD 0 } st
  | idx :: todo =>
    if s.tracker.pieceCount ≤ idx then scanFrom s st todo
    else
      match s.tracker.specs[idx]? with
      | none => (s, { st with point := .ended })
      | some spec => (s, { st with point := .read idx spec [] todo })

def checkResume (s : Session) (st : Starter) : Session × Starter :=
  if s.resumeChecked then afterCheck s st
  else
    let claims := st.haveFromResume ≠ ∅
    let s := { s with
      resumeChecked := true
      bytesUploaded :=
        if claims ∧ st.uploadedFromResume > s.bytesUploaded then st.uploadedFromResume
        else s.bytesUploaded }
    let pieces := if claims then st.haveFromResume else Finset.range s.tracker.pieceCount.toNat
    if pieces = ∅ then afterCheck s st
    else
      ({ s with
          state := .checking
          events := s.events ++ [.stateChanged s.state .checking] },
        { st with point := .emitChecking (pieces.sort (· ≤ ·)) })

inductive StartAction where
  | starts
  | returns
  /-- A read raises `OSError` or `ValueError`. -/
  | fails
  | fetches
  | raises

def startStep (sha1 : Bytes → Bytes) : StartAction → Session → Starter → Option (Session × Starter)
  | .starts, s, st =>
    match st.point with
    | .starting =>
      if s.state = .downloading ∨ s.state = .seeding then some (s, { st with point := .ended })
      else some (checkResume s st)
    | _ => none
  | .returns, s, st =>
    match st.point with
    | .emitChecking todo => some (scanFrom s st todo)
    | .read idx spec data todo =>
      if fetchByte s.storage spec.offset spec.length data ≠ none then none
      else if (data.length : ℤ) = spec.length ∧ verifyPiece sha1 data spec.hash then
        some (scanFrom { s with tracker := s.tracker.markHave idx } st todo)
      else some (scanFrom s st todo)
    | .emitStarted => some (s, { st with point := .ended })
    | _ => none
  | .fails, s, st =>
    match st.point with
    | .read _ _ _ todo => some (scanFrom s st todo)
    | _ => none
  | .fetches, s, st =>
    match st.point with
    | .read idx spec data todo =>
      (fetchByte s.storage spec.offset spec.length data).map fun byte =>
        (s, { st with point := .read idx spec (data ++ [byte]) todo })
    | _ => none
  | .raises, s, st =>
    match st.point with
    | .ended => none
    | _ => some (s, { st with point := .ended })

inductive Proc where
  | peer (t : Task)
  | starter (st : Starter)

inductive SessionAction where
  | peer (a : Action)
  | start (a : StartAction)

def program (sha1 : Bytes → Bytes) (kind : StorageKind) : Program Session Proc SessionAction
  | .peer a, s, .peer t => (taskStep sha1 kind a s t).map fun next => (next.1, .peer next.2)
  | .start a, s, .starter st => (startStep sha1 a s st).map fun next => (next.1, .starter next.2)
  | _, _, _ => none

def Fresh : Proc → Prop
  | .peer t => ∃ addr endgameGiven rates, t = newTask addr endgameGiven rates
  | .starter st => st.point = .starting

instance (t : Task) : Decidable (t = newTask t.addr t.endgameGiven t.rates) :=
  decidable_of_iff
    (t.bytesDownloaded = 0 ∧ t.bytesUploaded = 0 ∧ t.currentPiece = none ∧
      t.pieceBlocks = [] ∧ t.pieceSpec = none ∧ t.peerPieces = ∅ ∧ t.peerChoking = true ∧
      t.amInterested = false ∧ t.log = [] ∧ t.point = .starting) (by
    cases t
    simp [newTask])

instance : (p : Proc) → Decidable (Fresh p)
  | .peer t => decidable_of_iff (t = newTask t.addr t.endgameGiven t.rates)
      ⟨fun h => ⟨_, _, _, h⟩, fun ⟨_, _, _, h⟩ => by rw [h]; rfl⟩
  | .starter st =>
    match h : st.point with
    | .starting => .isTrue h
    | .emitChecking _ => .isFalse fun hp => by cases h.symm.trans hp
    | .read _ _ _ _ => .isFalse fun hp => by cases h.symm.trans hp
    | .emitStarted => .isFalse fun hp => by cases h.symm.trans hp
    | .ended => .isFalse fun hp => by cases h.symm.trans hp

def newSession (tracker : Tracker) (storage : Bytes) : Session where
  tracker := tracker
  endgame := .new
  storage := storage
  doneEvent := false
  events := []
  cancels := []
  state := .stopped
  resumeChecked := false
  bytesDownloaded := 0
  bytesUploaded := 0

theorem program_peer {sha1 : Bytes → Bytes} {kind : StorageKind} {a : SessionAction} {s s' : Session}
    {t : Task} {p' : Proc} (h : program sha1 kind a s (.peer t) = some (s', p')) :
    ∃ b t', a = .peer b ∧ p' = .peer t' ∧ taskStep sha1 kind b s t = some (s', t') := by
  cases a with
  | peer b =>
    obtain ⟨⟨s₁, t₁⟩, hstep, heq⟩ := Option.map_eq_some_iff.mp h
    obtain ⟨rfl, rfl⟩ := Prod.mk.inj heq
    exact ⟨b, t₁, rfl, rfl, hstep⟩
  | start b => cases h

theorem program_starter {sha1 : Bytes → Bytes} {kind : StorageKind} {a : SessionAction}
    {s s' : Session} {st : Starter} {p' : Proc}
    (h : program sha1 kind a s (.starter st) = some (s', p')) :
    ∃ b st', a = .start b ∧ p' = .starter st' ∧ startStep sha1 b s st = some (s', st') := by
  cases a with
  | peer b => cases h
  | start b =>
    obtain ⟨⟨s₁, t₁⟩, hstep, heq⟩ := Option.map_eq_some_iff.mp h
    obtain ⟨rfl, rfl⟩ := Prod.mk.inj heq
    exact ⟨b, t₁, rfl, rfl, hstep⟩

/-- A call of `start` is before or in its scan, with these pieces left. -/
def Starter.Scans (st : Starter) (todo : List ℕ) : Prop :=
  st.point = .emitChecking todo ∨ ∃ idx spec data, st.point = .read idx spec data todo

inductive StartTurn (sha1 : Bytes → Bytes) (s : Session) (st : Starter) (s' : Session)
    (st' : Starter) : Prop
  | ends : s' = s → st' = { st with point := .ended } → StartTurn sha1 s st s' st'
  | checks : st.point = .starting → checkResume s st = (s', st') → StartTurn sha1 s st s' st'
  | scans (todo : List ℕ) : st.Scans todo → scanFrom s st todo = (s', st') →
      StartTurn sha1 s st s' st'
  | marks {idx spec data todo} : st.point = .read idx spec data todo →
      verifyPiece sha1 data spec.hash = true →
      scanFrom { s with tracker := s.tracker.markHave idx } st todo = (s', st') →
      StartTurn sha1 s st s' st'
  | fetches {idx spec data todo byte} : st.point = .read idx spec data todo →
      fetchByte s.storage spec.offset spec.length data = some byte → s' = s →
      st' = { st with point := .read idx spec (data ++ [byte]) todo } → StartTurn sha1 s st s' st'

theorem startTurn_of_step {sha1 : Bytes → Bytes} {b : StartAction} {s s' : Session}
    {st st' : Starter} (h : startStep sha1 b s st = some (s', st')) : StartTurn sha1 s st s' st' := by
  have hends : ∀ {st₁ : Starter}, st₁ = { st with point := .ended } →
      some (s, st₁) = some (s', st') → StartTurn sha1 s st s' st' := by
    intro st₁ hst heq
    obtain ⟨rfl, rfl⟩ := Prod.mk.inj (Option.some.inj heq)
    exact .ends rfl hst
  cases b with
  | starts =>
    simp only [startStep] at h
    split at h
    · next hp =>
      split at h
      · exact hends rfl h
      · exact .checks hp (Option.some.inj h)
    · cases h
  | returns =>
    simp only [startStep] at h
    split at h
    · next todo hp => exact .scans todo (Or.inl hp) (Option.some.inj h)
    · next idx spec data todo hp =>
      split at h
      · cases h
      · split at h
        · next hgood => exact .marks hp hgood.2 (Option.some.inj h)
        · exact .scans todo (Or.inr ⟨idx, spec, data, hp⟩) (Option.some.inj h)
    · exact hends rfl h
    · cases h
  | fails =>
    simp only [startStep] at h
    split at h
    · next idx spec data todo hp =>
      exact .scans todo (Or.inr ⟨idx, spec, data, hp⟩) (Option.some.inj h)
    · cases h
  | fetches =>
    simp only [startStep] at h
    split at h
    · next idx spec data todo hp =>
      obtain ⟨byte, hbyte, heq⟩ := Option.map_eq_some_iff.mp h
      obtain ⟨rfl, rfl⟩ := Prod.mk.inj heq
      exact .fetches hp hbyte rfl rfl
    · cases h
  | raises =>
    simp only [startStep] at h
    split at h
    · cases h
    · exact hends rfl h

end SessionTasks
