import Aiobt.VerifiedPieces
import Aiobt.PeerRuns
import Mathlib.Algebra.Order.BigOperators.Group.Finset

/-! # What is announced to the tracker

The `left` of an `AnnounceRequest` against the pieces that are missing, over every run of a session.
The byte counter is set by a scan and later raised by what each peer has sent when it ends. -/
namespace TrackerAccounting

open ByteStrings PieceTracker PeerMessages PieceEngine SessionTasks PieceSearch EngineTurns
open InterleavedProcesses VerifiedPieces

structure AnnounceRequest where
  infoHash : Bytes
  peerId : Bytes
  port : ℤ
  uploaded : ℤ
  downloaded : ℤ
  left : ℤ
  compact : Bool
  event : List ℕ
  numwant : ℤ
  key : ℕ
  deriving DecidableEq, Repr

def announceRequest (infoHash peerId : Bytes) (port totalLength : ℤ) (event : List ℕ) (key : ℕ)
    (s : Session) : AnnounceRequest where
  infoHash := infoHash
  peerId := peerId
  port := port
  uploaded := s.bytesUploaded
  downloaded := s.bytesDownloaded
  left := totalLength - s.bytesDownloaded
  compact := true
  event := event
  numwant := 50
  key := key

def pieceSize (t : Tracker) (i : ℕ) : ℤ := ((t.specs[i]?).map PieceSpec.length).getD 0

def sizeOf (t : Tracker) (pieces : Finset ℕ) : ℤ := ∑ i ∈ pieces, pieceSize t i

def missing (t : Tracker) : Finset ℕ := Finset.range t.specs.length \ t.got

/-- Since the end of the last scan: the bytes that peers had received when they ended, and the size
of the pieces that were marked as had. -/
structure Ledger where
  ended : ℤ
  marked : ℤ
  deriving DecidableEq, Repr

def finishesScan (st st' : Starter) : Bool :=
  match st.point, st'.point with
  | .emitChecking _, .emitStarted => true
  | .read _ _ _ _, .emitStarted => true
  | _, _ => false

def newlyMarked (s s' : Session) : ℤ := sizeOf s'.tracker (s'.tracker.got \ s.tracker.got)

def enter (s s' : Session) (l : Ledger) : Proc → Proc → Ledger
  | .peer t, .peer t' =>
    { ended := l.ended +
        if t.point = .disconnect ∧ t'.point = .ended then (t.bytesDownloaded : ℤ) else 0
      marked := l.marked + newlyMarked s s' }
  | .starter st, .starter st' =>
    if finishesScan st st' then ⟨0, 0⟩ else { l with marked := l.marked + newlyMarked s s' }
  | _, _ => l

def record (c c' : Config Session Proc) (l : Ledger) : Move Proc SessionAction → Ledger
  | .spawn _ => l
  | .act i _ =>
    match c.procs[i]?, c'.procs[i]? with
    | some p, some p' => enter c.shared c'.shared l p p'
    | _, _ => l

def accountRun (sha1 : Bytes → Bytes) (kind : StorageKind) : Config Session Proc → Ledger →
    List (Move Proc SessionAction) → Option (Config Session Proc × Ledger)
  | c, l, [] => some (c, l)
  | c, l, m :: rest =>
    match apply (program sha1 kind) c m with
    | none => none
    | some c' => accountRun sha1 kind c' (record c c' l m) rest

section
variable {sha1 : Bytes → Bytes} {kind : StorageKind} {hint : ℕ} {s s' : Session} {t t' : Task}

theorem taskStep_disconnect {a : PieceEngine.Action} (hp : t.point = .disconnect)
    (h : taskStep sha1 kind a s t = some (s', t')) :
    (t'.point = .ended ∧ s'.bytesDownloaded = s.bytesDownloaded + t.bytesDownloaded) ∨
      (t'.point = .disconnect ∧ s'.bytesDownloaded = s.bytesDownloaded) := by
  cases a with
  | returns hint =>
    simp only [taskStep, resume, hp] at h
    cases h
    exact Or.inl ⟨rfl, rfl⟩
  | raises =>
    simp only [taskStep, hp] at h
    cases h
    exact Or.inl ⟨rfl, rfl⟩
  | rechokes amChoking =>
    simp only [taskStep] at h
    split at h
    · cases h
    · cases h
      exact Or.inr ⟨hp, rfl⟩
  | starts | receives | fetches | stores => simp [taskStep, hp] at h
  | cancels addr connected hint => simp [taskStep, cancelStep, hp] at h

end

section
variable {sha1 : Bytes → Bytes} {s s' : Session} {st st' : Starter}

theorem afterCheck_bytes (s : Session) (st : Starter) :
    (afterCheck s st).1.bytesDownloaded = s.bytesDownloaded := by
  unfold afterCheck
  split <;> rfl

theorem checkResume_bytes (s : Session) (st : Starter) :
    (checkResume s st).1.bytesDownloaded = s.bytesDownloaded := by
  unfold checkResume
  simp only
  generalize (if st.haveFromResume ≠ ∅ then st.haveFromResume
    else Finset.range s.tracker.pieceCount.toNat) = pieces
  split
  · exact afterCheck_bytes s st
  · split
    · exact afterCheck_bytes _ st
    · rfl

def ReadOk (specs : List PieceSpec) (st : Starter) : Prop :=
  ∀ idx spec data todo, st.point = .read idx spec data todo → specs[idx]? = some spec

theorem readOk_of_point {specs : List PieceSpec}
    (h : ∀ idx spec data todo, st.point ≠ .read idx spec data todo) : ReadOk specs st :=
  fun idx spec data todo hp => absurd hp (h idx spec data todo)

theorem scanFrom_effect (s : Session) (st : Starter) (todo : List ℕ) :
    Undisturbed s (scanFrom s st todo).1 ∧ ReadOk s.tracker.specs (scanFrom s st todo).2 ∧
      (((scanFrom s st todo).2.point = .emitStarted ∧
          (scanFrom s st todo).1.bytesDownloaded = sizeOf s.tracker s.tracker.got) ∨
        ((scanFrom s st todo).2.point ≠ .emitStarted ∧
          (scanFrom s st todo).1.bytesDownloaded = s.bytesDownloaded)) := by
  induction todo with
  | nil =>
    obtain ⟨hsame, hpoint⟩ := afterCheck_undisturbed { s with bytesDownloaded :=
      ∑ i ∈ s.tracker.got, ((s.tracker.specs[i]?).map PieceSpec.length).getD 0 } st
    refine ⟨⟨hsame.marks, hsame.storage⟩, ?_, Or.inl ⟨hpoint, afterCheck_bytes _ st⟩⟩
    exact readOk_of_point fun _ _ _ _ hread => by cases hpoint.symm.trans hread
  | cons idx todo ih =>
    unfold scanFrom
    split
    · exact ih
    · split
      · refine ⟨⟨Marks.refl _, rfl⟩, readOk_of_point ?_, Or.inr ⟨?_, rfl⟩⟩
        · intro _ _ _ _ hread
          cases hread
        · intro hpoint
          cases hpoint
      · next spec hspec =>
        refine ⟨⟨Marks.refl _, rfl⟩, ?_, Or.inr ⟨?_, rfl⟩⟩
        · intro _ _ _ _ hread
          cases hread
          exact hspec
        · intro hpoint
          cases hpoint

/-- A step from before or in a scan finishes it exactly if it comes to the end. -/
theorem finishesScan_iff {todo : List ℕ} (hscan : st.Scans todo) :
    finishesScan st st' = true ↔ st'.point = .emitStarted := by
  unfold finishesScan
  rcases hscan with hp | ⟨idx, spec, data, hp⟩
  · rw [hp]
    cases st'.point <;> simp
  · rw [hp]
    cases st'.point <;> simp

theorem finishesScan_eq_false (h : st.point = .starting ∨ st'.point ≠ .emitStarted) :
    finishesScan st st' = false := by
  unfold finishesScan
  rcases h with hp | hp
  · rw [hp]
  · split
    · next hp' => exact absurd hp' hp
    · next hp' => exact absurd hp' hp
    · rfl

/-- What a step of a call of `start` does: it may mark the piece that it has read, and it sets the
counter at the end of its scan. -/
theorem start_effect {b : StartAction} (hok : ReadOk s.tracker.specs st)
    (h : startStep sha1 b s st = some (s', st')) :
    ∃ s₁, (s₁ = s ∨ ∃ idx spec, s.tracker.specs[idx]? = some spec ∧
        s₁ = { s with tracker := s.tracker.markHave idx }) ∧
      Undisturbed s₁ s' ∧ ReadOk s.tracker.specs st' ∧
      ((finishesScan st st' = true ∧ s'.bytesDownloaded = sizeOf s₁.tracker s₁.tracker.got) ∨
        (finishesScan st st' = false ∧ s'.bytesDownloaded = s.bytesDownloaded)) := by
  have hscan : ∀ {s₁ : Session} {todo : List ℕ}, s₁.tracker.specs = s.tracker.specs →
      s₁.bytesDownloaded = s.bytesDownloaded → st.Scans todo →
      scanFrom s₁ st todo = (s', st') → Undisturbed s₁ s' ∧ ReadOk s.tracker.specs st' ∧
        ((finishesScan st st' = true ∧ s'.bytesDownloaded = sizeOf s₁.tracker s₁.tracker.got) ∨
          (finishesScan st st' = false ∧ s'.bytesDownloaded = s.bytesDownloaded)) := by
    intro s₁ todo hspecs hbytes hpoint heq
    obtain ⟨hsame, hread, hcount⟩ := scanFrom_effect s₁ st todo
    rw [heq] at hsame hread hcount
    rw [hspecs] at hread
    refine ⟨hsame, hread, ?_⟩
    rcases hcount with ⟨hover, hset⟩ | ⟨hon, hset⟩
    · exact Or.inl ⟨(finishesScan_iff hpoint).mpr hover, hset⟩
    · exact Or.inr ⟨finishesScan_eq_false (Or.inr hon), hset.trans hbytes⟩
  cases startTurn_of_step h with
  | ends hs hst =>
    rw [hs, hst]
    refine ⟨s, Or.inl rfl, ⟨Marks.refl _, rfl⟩, readOk_of_point ?_, Or.inr ⟨?_, rfl⟩⟩
    · intro _ _ _ _ hread
      cases hread
    · apply finishesScan_eq_false
      exact Or.inr fun hp => by cases hp
  | checks hpoint heq =>
    obtain ⟨hs, hp⟩ := checkResume_spec s st
    have hbytes := checkResume_bytes s st
    rw [heq] at hs hp hbytes
    refine ⟨s, Or.inl rfl, hs, readOk_of_point ?_,
      Or.inr ⟨finishesScan_eq_false (Or.inl hpoint), hbytes⟩⟩
    intro _ _ _ _ hread
    rcases hp with hp | ⟨todo, hp⟩
    · cases hp.symm.trans hread
    · cases hp.symm.trans hread
  | scans todo hpoint heq => exact ⟨s, Or.inl rfl, hscan rfl rfl hpoint heq⟩
  | @marks idx spec data todo hpoint hverify heq =>
    exact ⟨_, Or.inr ⟨idx, spec, hok idx spec data todo hpoint, rfl⟩,
      hscan rfl rfl (Or.inr ⟨idx, spec, data, hpoint⟩) heq⟩
  | @fetches idx spec data todo byte hpoint hbyte hs hst =>
    rw [hs, hst]
    refine ⟨s, Or.inl rfl, ⟨Marks.refl _, rfl⟩, ?_, Or.inr ⟨?_, rfl⟩⟩
    · intro _ _ _ _ hread
      cases hread
      exact hok idx spec data todo hpoint
    · apply finishesScan_eq_false
      exact Or.inr fun hp => by cases hp

end

section
variable {sha1 : Bytes → Bytes} {kind : StorageKind} {tr : Tracker} {storage : Bytes}
  {c c' : Config Session Proc} {l l' : Ledger}

structure SessionOk (tr : Tracker) (s : Session) : Prop where
  specs : s.tracker.specs = tr.specs
  count : s.tracker.pieceCount = tr.pieceCount
  got : s.tracker.got ⊆ Finset.range tr.specs.length

def ProcKnows (sha1 : Bytes → Bytes) (specs : List PieceSpec) : Proc → Prop
  | .peer t => TaskOk sha1 specs t
  | .starter st => ReadOk specs st

theorem procKnows_of_fresh (sha1 : Bytes → Bytes) (specs : List PieceSpec) {p : Proc} (h : Fresh p) :
    ProcKnows sha1 specs p := by
  cases p with
  | peer t =>
    obtain ⟨addr, given, rates, rfl⟩ := h
    exact newTask_taskOk specs addr given rates
  | starter st =>
    have hp : st.point = .starting := h
    exact readOk_of_point fun _ _ _ _ hread => by cases hp.symm.trans hread

theorem SessionOk.undisturbed {s s' : Session} (h : SessionOk tr s) (hs : Undisturbed s s') :
    SessionOk tr s' where
  specs := hs.marks.specs.trans h.specs
  count := hs.marks.pieceCount.trans h.count
  got := by
    rw [hs.marks.got]
    exact h.got

theorem SessionOk.markHave {s : Session} (h : SessionOk tr s) {index : ℕ} {spec : PieceSpec}
    (hat : tr.specs[index]? = some spec) :
    SessionOk tr { s with tracker := s.tracker.markHave index } where
  specs := h.specs
  count := h.count
  got := by
    intro i hi
    rcases Finset.mem_insert.mp hi with rfl | hi
    · exact Finset.mem_range.mpr (List.getElem?_eq_some_iff.mp hat).1
    · exact h.got hi

theorem SessionOk.step {s s' : Session} {p p' : Proc} {a : SessionAction} (h : SessionOk tr s)
    (hok : ProcKnows sha1 tr.specs p) (hs : program sha1 kind a s p = some (s', p')) :
    SessionOk tr s' ∧ ProcKnows sha1 tr.specs p' := by
  cases p with
  | peer t =>
    obtain ⟨b, t', -, rfl, hstep⟩ := program_peer hs
    have hturn := turn_of_step hstep
    have htask : TaskOk sha1 s.tracker.specs t := by
      rw [h.specs]
      exact hok
    have htask' := (hturn.taskOk htask).2
    rw [h.specs] at htask'
    refine ⟨?_, htask'⟩
    rcases hturn.effect with hsame | ⟨index, spec, assembled, hp, ⟨k, byte, -, rfl⟩ | rfl⟩
    · exact h.undisturbed hsame
    · exact ⟨h.specs, h.count, h.got⟩
    · obtain ⟨-, hat, -⟩ := hok.writing index spec assembled (by rw [hp]; rfl)
      have hmarked := h.markHave hat
      exact ⟨hmarked.specs, hmarked.count, hmarked.got⟩
  | starter st =>
    obtain ⟨b, st', -, rfl, hstep⟩ := program_starter hs
    have hread : ReadOk s.tracker.specs st := by
      rw [h.specs]
      exact hok
    obtain ⟨s₁, hmark, hsame, hread', -⟩ := start_effect hread hstep
    rw [h.specs] at hread'
    rcases hmark with rfl | ⟨idx, spec, hat, rfl⟩
    · exact ⟨h.undisturbed hsame, hread'⟩
    · rw [h.specs] at hat
      exact ⟨(h.markHave hat).undisturbed hsame, hread'⟩

theorem session_ok (hnone : tr.got = ∅)
    (h : Reach (program sha1 kind) Spawning ⟨newSession tr storage, []⟩ c) :
    SessionOk tr c.shared ∧ ∀ p ∈ c.procs, ProcKnows sha1 tr.specs p := by
  refine h.rely_guarantee (G := SessionOk tr) (L := fun _ => ProcKnows sha1 tr.specs)
    (R := fun _ _ => True) ⟨rfl, rfl, ?_⟩ (fun p hp => by cases hp) ?_ ?_ ?_
  · intro i hi
    have hi : i ∈ tr.got := hi
    rw [hnone] at hi
    cases hi
  · intro c p _ hfresh
    exact procKnows_of_fresh sha1 tr.specs hfresh
  · intro c i a p s p' _ _ hgood hok hs
    obtain ⟨hgood', hok'⟩ := hgood.step hok hs
    exact ⟨hgood', hok', trivial⟩
  · intro _ _ _ _ _ hok
    exact hok

def Balance (s : Session) (l : Ledger) : Prop :=
  s.bytesDownloaded + l.marked = sizeOf s.tracker s.tracker.got + l.ended

theorem sizeOf_congr {t t' : Tracker} (h : t'.specs = t.specs) (pieces : Finset ℕ) :
    sizeOf t' pieces = sizeOf t pieces := by
  unfold sizeOf pieceSize
  rw [h]

theorem newlyMarked_add {s s' : Session} (hspecs : s'.tracker.specs = s.tracker.specs)
    (hsub : s.tracker.got ⊆ s'.tracker.got) :
    sizeOf s'.tracker s'.tracker.got = sizeOf s.tracker s.tracker.got + newlyMarked s s' := by
  rw [newlyMarked, ← sizeOf_congr hspecs s.tracker.got, add_comm]
  exact (Finset.sum_sdiff hsub).symm

theorem balance_step {s s' : Session} {p p' : Proc} {a : SessionAction} (hgood : SessionOk tr s)
    (hok : ProcKnows sha1 tr.specs p) (hs : program sha1 kind a s p = some (s', p'))
    (h : Balance s l) : Balance s' (enter s s' l p p') := by
  have hspecs : s'.tracker.specs = s.tracker.specs :=
    (hgood.step hok hs).1.specs.trans hgood.specs.symm
  unfold Balance at h ⊢
  cases p with
  | peer t =>
    obtain ⟨b, t', -, rfl, hstep⟩ := program_peer hs
    have hadd := newlyMarked_add hspecs (turn_of_step hstep).got_subset
    simp only [enter]
    by_cases hp : t.point = .disconnect
    · rcases taskStep_disconnect hp hstep with ⟨hended, hbytes⟩ | ⟨hkeeps, hbytes⟩
      · rw [if_pos ⟨hp, hended⟩, hbytes]
        linarith
      · have hnot : ¬ (t.point = .disconnect ∧ t'.point = .ended) := by
          rintro ⟨-, hended⟩
          cases hkeeps.symm.trans hended
        rw [if_neg hnot, hbytes]
        linarith
    · have hsame := congrArg Prod.fst (taskStep_counts hp hstep)
      simp only [counts] at hsame
      rw [if_neg fun hboth => hp hboth.1, hsame]
      linarith
  | starter st =>
    obtain ⟨b, st', -, rfl, hstep⟩ := program_starter hs
    have hread : ReadOk s.tracker.specs st := by
      rw [hgood.specs]
      exact hok
    have hadd := newlyMarked_add hspecs (start_got_subset hstep)
    obtain ⟨s₁, hmark, hsame, -, hcount⟩ := start_effect hread hstep
    simp only [enter]
    rcases hcount with ⟨hover, hset⟩ | ⟨hon, hset⟩
    · rw [if_pos hover, hset, hsame.marks.got, sizeOf_congr hsame.marks.specs]
    · rw [hon]
      simp only [Bool.false_eq_true, if_false]
      linarith

theorem balance_run {moves : List (Move Proc SessionAction)} (hnone : tr.got = ∅)
    (hreach : Reach (program sha1 kind) Spawning ⟨newSession tr storage, []⟩ c)
    (h : Balance c.shared l) (hspawning : Allowed (program sha1 kind) Spawning c moves)
    (hrun : accountRun sha1 kind c l moves = some (c', l')) :
    Reach (program sha1 kind) Spawning ⟨newSession tr storage, []⟩ c' ∧ Balance c'.shared l' := by
  induction moves generalizing c l with
  | nil =>
    obtain ⟨rfl, rfl⟩ := Prod.mk.inj (Option.some.inj hrun)
    exact ⟨hreach, h⟩
  | cons m rest ih =>
    unfold accountRun at hrun
    split at hrun
    · cases hrun
    · next c₁ happ =>
      refine ih (.next m hreach hspawning.1 happ) ?_ (hspawning.2 c₁ happ) hrun
      cases m with
      | spawn p =>
        rw [apply_spawn happ]
        exact h
      | act i a =>
        obtain ⟨p, s, p', hp, hs, rfl⟩ := apply_act happ
        obtain ⟨hgood, hprocs⟩ := session_ok hnone hreach
        have hset : (c.procs.set i p')[i]? = some p' := by
          rw [List.getElem?_set_self']
          simp [hp]
        simp only [record, hp, hset]
        exact balance_step hgood (hprocs p (List.mem_of_getElem? hp)) hs h

end

section
variable {pieceLength totalLength : ℤ} {raw : Bytes} {tr : Tracker}

theorem pieceSize_eq (h1 : 1 ≤ pieceLength) (h0 : 0 ≤ totalLength)
    (hinit : init pieceLength totalLength raw = some tr) {i : ℕ} (hi : i < tr.specs.length) :
    pieceSize tr i = min pieceLength (totalLength - i * pieceLength) ∧
      i * pieceLength < totalLength := by
  obtain ⟨hc0, -, hc2⟩ := pieceCount_bounds h1 h0 hinit
  have hspecs := init_specs h1 h0 hinit
  rw [specs_length hinit] at hi
  constructor
  · rw [pieceSize, hspecs, List.getElem?_map, List.getElem?_range hi]
    rfl
  · have hle : (i : ℤ) ≤ tr.pieceCount - 1 := by omega
    have := mul_le_mul_of_nonneg_right hle (show 0 ≤ pieceLength by omega)
    omega

theorem sizeOf_all (h1 : 1 ≤ pieceLength) (h0 : 0 ≤ totalLength)
    (hinit : init pieceLength totalLength raw = some tr) :
    sizeOf tr (Finset.range tr.specs.length) = totalLength := by
  obtain ⟨hc0, hc1, -⟩ := pieceCount_bounds h1 h0 hinit
  have hsum : ∀ k, k ≤ tr.specs.length →
      sizeOf tr (Finset.range k) = min (k * pieceLength) totalLength := by
    intro k
    induction k with
    | zero =>
      intro _
      simp [sizeOf, h0]
    | succ k ih =>
      intro hk
      obtain ⟨hsize, hlt⟩ := pieceSize_eq h1 h0 hinit (i := k) hk
      have hbefore := ih (by omega)
      unfold sizeOf at hbefore ⊢
      rw [Finset.sum_range_succ, hbefore, hsize]
      push_cast
      rw [add_mul, one_mul]
      omega
  rw [hsum _ le_rfl, specs_length hinit]
  have hcount : ((tr.pieceCount.toNat : ℕ) : ℤ) = tr.pieceCount := Int.toNat_of_nonneg hc0
  rw [hcount]
  omega

theorem sizeOf_missing {t : Tracker} (h : t.got ⊆ Finset.range t.specs.length) :
    sizeOf t (missing t) + sizeOf t t.got = sizeOf t (Finset.range t.specs.length) :=
  Finset.sum_sdiff h

end

section
variable {sha1 : Bytes → Bytes} {kind : StorageKind} {tr : Tracker} {storage : Bytes}
  {c : Config Session Proc} {l : Ledger} {pieceLength totalLength : ℤ} {raw : Bytes}
  {moves : List (Move Proc SessionAction)}

/-- All pieces are had exactly if those that are missing have no size. -/
theorem isComplete_iff (h1 : 1 ≤ pieceLength) (h0 : 0 ≤ totalLength)
    (hinit : init pieceLength totalLength raw = some tr) {s : Session} (hok : SessionOk tr s) :
    0 ≤ sizeOf s.tracker (missing s.tracker) ∧
      (sizeOf s.tracker (missing s.tracker) = 0 ↔ s.tracker.isComplete) := by
  have hpositive : ∀ i ∈ missing s.tracker, 0 < pieceSize s.tracker i := by
    intro i hi
    have hlt := Finset.mem_range.mp (Finset.mem_sdiff.mp hi).1
    rw [hok.specs] at hlt
    obtain ⟨hsize, hstart⟩ := pieceSize_eq h1 h0 hinit hlt
    have hsame : pieceSize s.tracker i = pieceSize tr i := by
      unfold pieceSize
      rw [hok.specs]
    rw [hsame, hsize]
    omega
  have hcard : (s.tracker.isComplete) ↔ s.tracker.got.card = tr.specs.length := by
    have hc0 := (pieceCount_bounds h1 h0 hinit).1
    rw [Tracker.isComplete, hok.count, specs_length hinit]
    omega
  refine ⟨Finset.sum_nonneg fun i hi => (hpositive i hi).le, ?_⟩
  rw [hcard]
  constructor
  · intro hzero
    have hempty : missing s.tracker = ∅ := by
      by_contra hne
      obtain ⟨i, hi⟩ := Finset.nonempty_iff_ne_empty.mpr hne
      have hall := (Finset.sum_eq_zero_iff_of_nonneg fun i hi => (hpositive i hi).le).mp hzero i hi
      exact absurd hall (hpositive i hi).ne'
    have hsub := Finset.sdiff_eq_empty_iff_subset.mp hempty
    rw [hok.specs] at hsub
    rw [hok.got.antisymm hsub, Finset.card_range]
  · intro hfull
    have hall : s.tracker.got = Finset.range tr.specs.length :=
      Finset.eq_of_subset_of_card_le hok.got (by rw [hfull, Finset.card_range])
    have hempty : missing s.tracker = ∅ := by
      rw [missing, hok.specs, hall, Finset.sdiff_self]
    rw [hempty]
    rfl

/-- At every time of a session, what is announced as left is the size of the missing pieces exactly
if the peers that have ended since the last scan had received as many bytes as were marked since. -/
theorem announced_left_iff (hinit : init pieceLength totalLength raw = some tr)
    (hspawning : Allowed (program sha1 kind) Spawning ⟨newSession tr storage, []⟩ moves)
    (hrun : accountRun sha1 kind ⟨newSession tr storage, []⟩ ⟨0, 0⟩ moves = some (c, l))
    (infoHash peerId : Bytes) (port : ℤ) (event : List ℕ) (key : ℕ) :
    ((announceRequest infoHash peerId port totalLength event key c.shared).left =
        sizeOf c.shared.tracker (missing c.shared.tracker) ↔
      totalLength + l.marked = sizeOf tr (Finset.range tr.specs.length) + l.ended) ∧
    (1 ≤ pieceLength → 0 ≤ totalLength →
      ((announceRequest infoHash peerId port totalLength event key c.shared).left =
          sizeOf c.shared.tracker (missing c.shared.tracker) ↔ l.marked = l.ended) ∧
      (l.marked = l.ended →
        0 ≤ (announceRequest infoHash peerId port totalLength event key c.shared).left ∧
        (announceRequest infoHash peerId port totalLength event key c.shared).left ≤ totalLength ∧
        ((announceRequest infoHash peerId port totalLength event key c.shared).left = 0 ↔
          c.shared.tracker.isComplete))) := by
  have hnone : tr.got = ∅ := (specs_eq_of_init hinit).2.2.2.1
  have hstart : Balance (newSession tr storage) ⟨0, 0⟩ := by
    have hempty : (newSession tr storage).tracker.got = ∅ := hnone
    unfold Balance
    rw [hempty]
    rfl
  obtain ⟨hreach, hbalance⟩ := balance_run hnone .refl hstart hspawning hrun
  have hok := (session_ok hnone hreach).1
  have hgot : c.shared.tracker.got ⊆ Finset.range c.shared.tracker.specs.length := by
    rw [hok.specs]
    exact hok.got
  have hmissing := sizeOf_missing hgot
  rw [sizeOf_congr hok.specs (Finset.range _), hok.specs] at hmissing
  have hleft : (announceRequest infoHash peerId port totalLength event key c.shared).left =
      totalLength - c.shared.bytesDownloaded := rfl
  rw [hleft]
  unfold Balance at hbalance
  constructor
  · constructor
    · intro h
      linarith
    · intro h
      linarith
  · intro h1 h0
    have hall := sizeOf_all h1 h0 hinit
    obtain ⟨hnonneg, hcomplete⟩ := isComplete_iff h1 h0 hinit hok
    have hsizes : 0 ≤ sizeOf c.shared.tracker c.shared.tracker.got := by
      apply Finset.sum_nonneg
      intro i hi
      have hlt := Finset.mem_range.mp (hok.got hi)
      obtain ⟨hsize, hbelow⟩ := pieceSize_eq h1 h0 hinit hlt
      have hsame : pieceSize c.shared.tracker i = pieceSize tr i := by
        unfold pieceSize
        rw [hok.specs]
      rw [hsame, hsize]
      omega
    constructor
    · constructor
      · intro h
        linarith
      · intro h
        linarith
    · intro hbal
      have heq : totalLength - c.shared.bytesDownloaded =
          sizeOf c.shared.tracker (missing c.shared.tracker) := by linarith
      rw [heq]
      exact ⟨hnonneg, by linarith, hcomplete⟩

end

theorem download_spawning (sha1 : Bytes → Bytes) (kind : StorageKind)
    (more : List (Move Proc SessionAction)) (c : Config Session Proc)
    (hmore : ∀ m ∈ more, ∃ i a, m = .act i a) :
    Allowed (program sha1 kind) Spawning c (download (List.replicate 20 7) ++ more) := by
  apply allowed_of_forall
  intro m hm c
  rcases List.mem_cons.mp hm with rfl | hm
  · exact ⟨_, _, _, rfl⟩
  · cases m with
    | spawn p =>
      rcases List.mem_append.mp hm with hm | hm
      · simp at hm
      · obtain ⟨i, a, heq⟩ := hmore _ hm
        cases heq
    | act i a => trivial

/-- A peer is still connected after it has delivered all there is: the torrent is complete, and
nothing is taken off what is left. -/
theorem announced_left_still_connected :
    ∃ tr c l, init 20 20 (List.replicate 20 7) = some tr ∧
      Allowed (program id .files) Spawning ⟨newSession tr (List.replicate 20 0), []⟩
        (download (List.replicate 20 7) ++ []) ∧
      accountRun id .files ⟨newSession tr (List.replicate 20 0), []⟩ ⟨0, 0⟩
        (download (List.replicate 20 7) ++ []) = some (c, l) ∧
      c.shared.tracker.isComplete ∧ sizeOf c.shared.tracker (missing c.shared.tracker) = 0 ∧
      (announceRequest [] [] 6881 20 [] 0 c.shared).left = 20 := by
  refine ⟨_, _, _, rfl, ?_, rfl, ?_, ?_, ?_⟩
  · exact download_spawning id .files [] _ fun m hm => by cases hm
  · decide +kernel
  · decide +kernel
  · decide +kernel

def departure : List (Move Proc SessionAction) :=
  [.act 0 (.peer .raises), .act 0 (.peer (.returns 0))]

theorem announced_left_departed :
    ∃ tr c l, init 20 20 (List.replicate 20 7) = some tr ∧
      accountRun id .files ⟨newSession tr (List.replicate 20 0), []⟩ ⟨0, 0⟩
        (download (List.replicate 20 7) ++ departure) = some (c, l) ∧
      l = ⟨20, 20⟩ ∧ (announceRequest [] [] 6881 20 [] 0 c.shared).left =
        sizeOf c.shared.tracker (missing c.shared.tracker) := by
  obtain ⟨tr, htr⟩ : ∃ tr, init 20 20 (List.replicate 20 7) = some tr := ⟨_, rfl⟩
  obtain ⟨c, l, hrun, hledger⟩ : ∃ c l, accountRun id .files
      ⟨newSession tr (List.replicate 20 0), []⟩ ⟨0, 0⟩
        (download (List.replicate 20 7) ++ departure) = some (c, l) ∧ l = ⟨20, 20⟩ := by
    obtain rfl := Option.some.inj htr
    exact ⟨_, _, rfl, by decide +kernel⟩
  refine ⟨tr, c, l, htr, hrun, hledger, ?_⟩
  have hspawning : Allowed (program id .files) Spawning
      ⟨newSession tr (List.replicate 20 0), []⟩ (download (List.replicate 20 7) ++ departure) := by
    apply download_spawning id .files departure _
    intro m hm
    simp only [departure, List.mem_cons, List.not_mem_nil, or_false] at hm
    rcases hm with rfl | rfl
    · exact ⟨_, _, rfl⟩
    · exact ⟨_, _, rfl⟩
  have hleft := (announced_left_iff htr hspawning hrun [] [] 6881 [] 0).2 (by decide) (by decide)
  refine hleft.1.mpr ?_
  rw [hledger]

end TrackerAccounting
