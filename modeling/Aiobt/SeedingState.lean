import Aiobt.CompletionEvents
import Aiobt.StoppedSessions
import Aiobt.TrackerAccounting

/-! # The state of a session follows its tracker

From the first call of `start` on, in a session that is not stopped. The state and the flag of the
choking manager are written by `start`; the tracker is also completed by the tasks of the peers. -/
namespace SeedingState

open ByteStrings PieceTracker InterleavedProcesses SessionControl
open PieceEngine (StorageKind)
open SessionTasks (Starter StartAction)
open StoppedSessions (inStart startAndJoin deliverAll)

variable {sha1 : Bytes → Bytes} {kind : StorageKind} {c : Config Control Proc}

/-- A call of `start` that has looked at the resume data, and has not decided yet. -/
def isDeciding : Proc → Bool
  | .starter st =>
    match st.point with
    | .emitChecking _ => true
    | .read _ _ _ _ => true
    | _ => false
  | _ => false

/-- Neither a call of `start` nor the handling of a message is in progress. -/
def rests : Proc → Bool
  | .peer t => decide (PeerRuns.Resting t)
  | p => !inStart p

def FollowsTracker (s : Control) : Prop :=
  (s.session.state = .seeding ↔ s.session.tracker.isComplete) ∧
    (s.session.tracker.isComplete → s.isSeeding = true) ∧
    (¬ s.session.tracker.isComplete → s.session.state = .downloading ∧ s.isSeeding = false)

/-- A peer completes the download only before the session is started, or while a call of `start`
is still to decide; and such a call is cancelled only while another one is still to decide, or after
one has decided for an incomplete download. -/
def Follows (c : Config Control Proc) (i : ℕ) : Action → Proc → Prop
  | .peer (.returns _), .peer t =>
    match t.point with
    | .write index _ _ =>
      (c.shared.session.tracker.markHave index).isComplete →
        c.shared.session.tracker.isComplete ∨ c.shared.session.state = .stopped ∨
          ∃ q ∈ c.procs, isDeciding q = true
    | _ => True
  | .start .raises, .starter st =>
    isDeciding (.starter st) = true → (∃ q ∈ c.procs.eraseIdx i, isDeciding q = true) ∨
      c.shared.session.state = .downloading ∧ ¬ c.shared.session.tracker.isComplete
  | _, _ => True

instance (c : Config Control Proc) (i : ℕ) (a : Action) (p : Proc) : Decidable (Follows c i a p) := by
  unfold Follows
  split
  · split <;> infer_instance
  · infer_instance
  · infer_instance

def Kept (c : Config Control Proc) : Move Proc Action → Prop
  | .spawn p => Fresh p ∧ p ≠ .stopper .starting
  | .act i a => ∀ p ∈ c.procs[i]?, Follows c i a p

instance (p : Proc) : Decidable (p ≠ .stopper .starting) :=
  match p with
  | .stopper .starting => .isFalse fun h => h rfl
  | .stopper (.choking _) => .isTrue nofun
  | .stopper .emitting => .isTrue nofun
  | .stopper .announcing => .isTrue nofun
  | .stopper .returned => .isTrue nofun
  | .stopper .raised => .isTrue nofun
  | .starter _ => .isTrue nofun
  | .joiner _ _ _ => .isTrue nofun
  | .peer _ => .isTrue nofun
  | .choker => .isTrue nofun

instance (c : Config Control Proc) : (m : Move Proc Action) → Decidable (Kept c m)
  | .spawn p => inferInstanceAs (Decidable (Fresh p ∧ p ≠ .stopper .starting))
  | .act i a => inferInstanceAs (Decidable (∀ p ∈ c.procs[i]?, Follows c i a p))

structure Invariant (c : Config Control Proc) : Prop where
  seeding : c.shared.isSeeding = true → c.shared.session.tracker.isComplete
  started : c.shared.lastCall = .start → c.shared.session.state ≠ .stopped
  follows : c.shared.session.state = .stopped ∨ (∃ q ∈ c.procs, isDeciding q = true) ∨
    c.shared.session.state = decidedState c.shared.session.tracker ∧
      (c.shared.session.tracker.isComplete → c.shared.isSeeding = true)

theorem isDeciding_iff {st : Starter} : isDeciding (.starter st) = true ↔ Deciding st := by
  constructor
  · intro h
    cases hp : st.point with
    | emitChecking todo => exact ⟨todo, Or.inl hp⟩
    | read idx spec data todo => exact ⟨todo, Or.inr ⟨idx, spec, data, hp⟩⟩
    | _ => simp [isDeciding, hp] at h
  · rintro ⟨todo, hp | ⟨idx, spec, data, hp⟩⟩
    · simp [isDeciding, hp]
    · simp [isDeciding, hp]

/-- Where the scan can look at every piece, only a cancelled call leaves it. -/
theorem raises_of_leaves {b : StartAction} {s s' : PieceEngine.Session} {st st' : Starter}
    (hspecs : s.tracker.specs.length = s.tracker.pieceCount.toNat) (hdeciding : Deciding st)
    (h : SessionTasks.startStep sha1 b s st = some (s', st')) (hended : st'.point = .ended) :
    b = .raises := by
  have hscan : ∀ {s₁ : PieceEngine.Session} {todo : List ℕ},
      SessionTasks.scanFrom s₁ st todo = (s', st') → s₁.tracker.pieceCount = s.tracker.pieceCount →
      s₁.tracker.specs = s.tracker.specs → False := by
    intro s₁ todo heq hcount hsame
    have hout := scanFrom_outcome s₁ st todo
    rw [heq, hcount, hsame] at hout
    rcases hout with ⟨hp, -⟩ | ⟨-, ⟨_, hp | ⟨_, _, _, hp⟩⟩ | ⟨-, idx, hinside, hnone⟩⟩
    · cases hended.symm.trans hp
    · cases hended.symm.trans hp
    · cases hended.symm.trans hp
    · rw [List.getElem?_eq_none_iff] at hnone
      omega
  obtain ⟨todo, hp | ⟨idx, spec, data, hp⟩⟩ := hdeciding
  · cases b with
    | raises => rfl
    | returns =>
      simp only [SessionTasks.startStep, hp] at h
      exact (hscan (Option.some.inj h) rfl rfl).elim
    | starts => simp [SessionTasks.startStep, hp] at h
    | fails => simp [SessionTasks.startStep, hp] at h
    | fetches => simp [SessionTasks.startStep, hp] at h
  · cases b with
    | raises => rfl
    | returns =>
      simp only [SessionTasks.startStep, hp] at h
      split at h
      · cases h
      · split at h
        · exact (hscan (Option.some.inj h) rfl rfl).elim
        · exact (hscan (Option.some.inj h) rfl rfl).elim
    | starts => simp [SessionTasks.startStep, hp] at h
    | fails =>
      simp only [SessionTasks.startStep, hp] at h
      exact (hscan (Option.some.inj h) rfl rfl).elim
    | fetches =>
      simp only [SessionTasks.startStep, hp] at h
      obtain ⟨_, -, heq⟩ := Option.map_eq_some_iff.mp h
      cases heq
      cases hended

variable {i : ℕ} {p p' : Proc} {s : Control}

theorem decidedState_congr {t t' : Tracker} (h : t'.isComplete ↔ t.isComplete) :
    decidedState t' = decidedState t := by
  rw [decidedState, decidedState, if_congr h rfl rfl]

theorem exists_deciding_set (hp : c.procs[i]? = some p) (hnot : isDeciding p = false)
    (h : ∃ q ∈ c.procs, isDeciding q = true) : ∃ q ∈ c.procs.set i p', isDeciding q = true := by
  obtain ⟨q, hq, hdeciding⟩ := h
  obtain ⟨j, hj⟩ := List.mem_iff_getElem?.mp hq
  by_cases hij : i = j
  · subst hij
    obtain rfl := Option.some.inj (hp.symm.trans hj)
    cases hnot.symm.trans hdeciding
  · rw [← List.getElem?_set_ne (a := p') hij] at hj
    exact ⟨q, List.mem_of_getElem? hj, hdeciding⟩

theorem exists_set_of_eraseIdx (h : ∃ q ∈ c.procs.eraseIdx i, isDeciding q = true) :
    ∃ q ∈ c.procs.set i p', isDeciding q = true := by
  obtain ⟨q, hq, hdeciding⟩ := h
  obtain ⟨j, hne, hj⟩ := List.mem_eraseIdx_iff_getElem?.mp hq
  rw [← List.getElem?_set_ne (a := p') (Ne.symm hne)] at hj
  exact ⟨q, List.mem_of_getElem? hj, hdeciding⟩

/-- A step of a process that is not deciding, after which the tracker is as complete as before. -/
theorem Invariant.frame (h : Invariant c) (hp : c.procs[i]? = some p) (hnot : isDeciding p = false)
    (hcomplete : s.session.tracker.isComplete ↔ c.shared.session.tracker.isComplete)
    (hstate : s.session.state = c.shared.session.state) (hseeding : s.isSeeding = c.shared.isSeeding)
    (hlast : s.lastCall = .start → c.shared.session.state ≠ .stopped) :
    Invariant ⟨s, c.procs.set i p'⟩ where
  seeding := by
    intro hyes
    exact hcomplete.mpr (h.seeding (hseeding ▸ hyes))
  started := by
    intro hstart
    rw [hstate]
    exact hlast hstart
  follows := by
    rw [hstate, decidedState_congr hcomplete, hcomplete, hseeding]
    rcases h.follows with hstopped | hdeciding | hfollows
    · exact Or.inl hstopped
    · exact Or.inr (Or.inl (exists_deciding_set hp hnot hdeciding))
    · exact Or.inr (Or.inr hfollows)

theorem taskStep_complete {a : PieceEngine.Action} {s s' : PieceEngine.Session} {t t' : PieceEngine.Task}
    (h : PieceEngine.taskStep sha1 kind a s t = some (s', t')) :
    (s'.tracker.isComplete ↔ s.tracker.isComplete) ∨
      ∃ index spec assembled hint, a = .returns hint ∧ t.point = .write index spec assembled ∧
        s'.tracker = s.tracker.markHave index := by
  rcases CompletionEvents.turn_signals (EngineTurns.turn_of_step h) with hs |
    ⟨index, spec, assembled, hint, ha, hp, -, rfl⟩ | ⟨-, -, hs⟩
  · exact Or.inl hs.isComplete
  · exact Or.inr ⟨index, spec, assembled, hint, ha, hp, rfl⟩
  · exact Or.inl hs.isComplete

structure Within (specs : List PieceSpec) (t : Tracker) : Prop where
  same : t.specs = specs
  count : specs.length = t.pieceCount.toNat
  got : ∀ i ∈ t.got, i < specs.length

def Known (sha1 : Bytes → Bytes) (specs : List PieceSpec) : Proc → Prop
  | .peer t => EngineTurns.TaskOk sha1 specs t
  | .starter st => TrackerAccounting.ReadOk specs st
  | .stopper _ => False
  | .joiner _ _ _ => True
  | .choker => True

variable {specs : List PieceSpec}

theorem Within.markHave {t : Tracker} (h : Within specs t) {index : ℕ} {spec : PieceSpec}
    (hspec : specs[index]? = some spec) : Within specs (t.markHave index) where
  same := h.same
  count := h.count
  got := by
    intro i hi
    rcases Finset.mem_insert.mp hi with rfl | hi
    · exact (List.getElem?_eq_some_iff.mp hspec).1
    · exact h.got i hi

theorem Within.complete {t : Tracker} (h : Within specs t) {index : ℕ} {spec : PieceSpec}
    (hspec : specs[index]? = some spec) (hcomplete : t.isComplete) : (t.markHave index).isComplete := by
  have hsub : t.got ⊆ Finset.range specs.length := fun i hi => Finset.mem_range.mpr (h.got i hi)
  have hcard : (t.got.card : ℤ) = t.pieceCount := hcomplete
  have hcount := h.count
  have hall : t.got = Finset.range specs.length := by
    refine Finset.eq_of_subset_of_card_le hsub ?_
    rw [Finset.card_range]
    omega
  have hmem : index ∈ t.got := by
    rw [hall, Finset.mem_range]
    exact (List.getElem?_eq_some_iff.mp hspec).1
  rw [Tracker.isComplete, Tracker.markHave_got, Finset.insert_eq_of_mem hmem]
  exact hcomplete

theorem Within.congr {t t' : Tracker} (h : Within specs t) (hmarks : PieceSearch.Marks t t') :
    Within specs t' where
  same := hmarks.specs.trans h.same
  count := h.count.trans (by rw [hmarks.pieceCount])
  got := by
    rw [hmarks.got]
    exact h.got

theorem isComplete_congr {t t' : Tracker} (hmarks : PieceSearch.Marks t t') :
    t'.isComplete ↔ t.isComplete := by
  rw [Tracker.isComplete, Tracker.isComplete, hmarks.got, hmarks.pieceCount]

/-- A step of a call of `start` keeps the tracker, or marks a piece of the torrent. -/
theorem start_tracker {b : StartAction} {s s' : PieceEngine.Session} {st st' : Starter}
    (hwithin : Within specs s.tracker) (hread : TrackerAccounting.ReadOk specs st)
    (h : SessionTasks.startStep sha1 b s st = some (s', st')) :
    Within specs s'.tracker ∧ TrackerAccounting.ReadOk specs st' ∧
      (s.tracker.isComplete → s'.tracker.isComplete) := by
  rw [← hwithin.same] at hread
  obtain ⟨s₁, hmarked, hsame, hread', -⟩ := TrackerAccounting.start_effect hread h
  rw [hwithin.same] at hread'
  rcases hmarked with rfl | ⟨idx, spec, hspec, rfl⟩
  · exact ⟨hwithin.congr hsame.marks, hread', (isComplete_congr hsame.marks).mpr⟩
  · rw [hwithin.same] at hspec
    refine ⟨(hwithin.markHave hspec).congr hsame.marks, hread', fun hcomplete => ?_⟩
    exact (isComplete_congr hsame.marks).mpr (hwithin.complete hspec hcomplete)

theorem peer_tracker {a : PieceEngine.Action} {s s' : PieceEngine.Session} {t t' : PieceEngine.Task}
    (hwithin : Within specs s.tracker) (hok : EngineTurns.TaskOk sha1 specs t)
    (h : PieceEngine.taskStep sha1 kind a s t = some (s', t')) :
    Within specs s'.tracker ∧ EngineTurns.TaskOk sha1 specs t' ∧
      ((s'.tracker.isComplete ↔ s.tracker.isComplete) ∨
        ∃ index spec assembled hint, a = .returns hint ∧ t.point = .write index spec assembled ∧
          s'.tracker = s.tracker.markHave index ∧ (s.tracker.isComplete → s'.tracker.isComplete)) := by
  have hturn := EngineTurns.turn_of_step h
  rw [← hwithin.same] at hok
  have hok' := (hturn.taskOk hok).2
  rw [hwithin.same] at hok hok'
  have hspec : ∀ index spec assembled, t.point = .write index spec assembled →
      specs[index]? = some spec := by
    intro index spec assembled hp
    exact (hok.writing index spec assembled (by rw [hp]; rfl)).2.1
  refine ⟨?_, hok', ?_⟩
  · rcases hturn.effect with hs | ⟨index, spec, assembled, hp, ⟨k, byte, -, rfl⟩ | rfl⟩
    · exact hwithin.congr hs.marks
    · exact hwithin
    · exact hwithin.markHave (hspec index spec assembled hp)
  · rcases taskStep_complete h with hsame | ⟨index, spec, assembled, hint, ha, hp, hmarked⟩
    · exact Or.inl hsame
    · refine Or.inr ⟨index, spec, assembled, hint, ha, hp, hmarked, fun hcomplete => ?_⟩
      rw [hmarked]
      exact hwithin.complete (hspec index spec assembled hp) hcomplete

theorem pieces_known {start : Config Control Proc} (hwithin : Within specs start.shared.session.tracker)
    (hstart : ∀ p ∈ start.procs, Known sha1 specs p) (h : Reach (program sha1 kind) Kept start c) :
    Within specs c.shared.session.tracker ∧ ∀ p ∈ c.procs, Known sha1 specs p := by
  refine h.rely_guarantee (G := fun s => Within specs s.session.tracker)
    (L := fun _ => Known sha1 specs) (R := fun _ _ => True) hwithin hstart ?_ ?_ ?_
  · intro c p _ hfresh
    cases p with
    | starter st =>
      have hpoint : st.point = .starting := hfresh.1
      exact TrackerAccounting.readOk_of_point fun _ _ _ _ hread => by
        cases hpoint.symm.trans hread
    | peer t => exact hfresh.1.elim
    | stopper point =>
      obtain rfl : point = .starting := hfresh.1
      exact hfresh.2 rfl
    | joiner _ _ _ => trivial
    | choker => trivial
  · intro c i a p s p' _ _ hG hL hs
    cases turn_of_step hs with
    | starter ha hp hp' hstep =>
      subst ha hp hp'
      obtain ⟨hG', hL', -⟩ := start_tracker hG hL (startStep_cases hstep).session
      exact ⟨hG', hL', trivial⟩
    | peer ha hp hp' hstep =>
      subst ha hp hp'
      obtain ⟨session, peers, htask, rfl⟩ := peerStep_cases hstep
      obtain ⟨hG', hL', -⟩ := peer_tracker hG hL htask
      exact ⟨hG', hL', trivial⟩
    | stopper hp =>
      subst hp
      exact hL.elim
    | @joiner _ addr _ hp hstep =>
      subst hp
      obtain ⟨⟨peers, rfl⟩, hp'⟩ := joinStep_cases hstep
      refine ⟨hG, ?_, trivial⟩
      rcases hp' with ⟨_, rfl⟩ | ⟨-, -, rfl⟩
      · trivial
      · exact EngineTurns.newTask_taskOk specs addr _ _
    | choker hp hp' hs' =>
      subst hp hp' hs'
      exact ⟨hG, trivial, trivial⟩
  · intro _ _ _ _ _ hok
    exact hok

theorem decidedState_of_incomplete {t : Tracker} (h : ¬ t.isComplete) : decidedState t = .downloading :=
  if_neg h

theorem isDeciding_eq_false {st : Starter} (h : ¬ Deciding st) : isDeciding (.starter st) = false :=
  Bool.eq_false_iff.mpr (mt isDeciding_iff.mp h)

theorem not_deciding_of_starting {st : Starter} (hp : st.point = .starting) : ¬ Deciding st := by
  rintro ⟨_, hscans | ⟨_, _, _, hscans⟩⟩
  · cases hp.symm.trans hscans
  · cases hp.symm.trans hscans

theorem starting_of_starts {s s' : PieceEngine.Session} {st st' : Starter}
    (h : SessionTasks.startStep sha1 .starts s st = some (s', st')) : st.point = .starting := by
  simp only [SessionTasks.startStep] at h
  split at h
  · assumption
  · cases h

/-- A call that returns at once has found the session started. -/
theorem state_of_refused {s s' : PieceEngine.Session} {st st' : Starter}
    (hended : st'.point = .ended) (h : SessionTasks.startStep sha1 .starts s st = some (s', st')) :
    s.state ≠ .stopped := by
  rcases starting_cases (starting_of_starts h) h with ⟨-, -, hruns⟩ | ⟨-, -, heq⟩
  · rcases hruns rfl with hstate | hstate
    · rw [hstate]
      nofun
    · rw [hstate]
      nofun
  · have hout := checkResume_outcome s st
    rw [heq] at hout
    rcases hout with ⟨hp, -⟩ | ⟨⟨_, hp | ⟨_, _, _, hp⟩⟩, -⟩
    · cases hended.symm.trans hp
    · cases hended.symm.trans hp
    · cases hended.symm.trans hp

theorem Invariant.spawn (h : Invariant c) (q : Proc) :
    Invariant { c with procs := c.procs ++ [q] } where
  seeding := h.seeding
  started := h.started
  follows := by
    rcases h.follows with hstopped | ⟨r, hr, hdeciding⟩ | hfollows
    · exact Or.inl hstopped
    · exact Or.inr (Or.inl ⟨r, List.mem_append_left [q] hr, hdeciding⟩)
    · exact Or.inr (Or.inr hfollows)

/-- A peer's task that completes the download meets the condition. -/
theorem Invariant.peer (h : Invariant c) (hwithin : Within specs c.shared.session.tracker)
    {a : PieceEngine.Action} {t t' : PieceEngine.Task} (hp : c.procs[i]? = some (.peer t))
    (hknown : EngineTurns.TaskOk sha1 specs t) (hok : Follows c i (.peer a) (.peer t))
    (hstep : peerStep sha1 kind a c.shared t = some (s, t')) :
    Invariant ⟨s, c.procs.set i (.peer t')⟩ := by
  obtain ⟨session, peers, htask, rfl⟩ := peerStep_cases hstep
  have hstate : session.state = c.shared.session.state := taskStep_state htask
  have hframe : (session.tracker.isComplete ↔ c.shared.session.tracker.isComplete) →
      Invariant ⟨{ c.shared with session := session, peers := peers }, c.procs.set i (.peer t')⟩ :=
    fun hsame => h.frame hp rfl hsame hstate rfl h.started
  obtain ⟨-, -, hsame | ⟨index, spec, assembled, hint, rfl, hpoint, hmarked, hstays⟩⟩ :=
    peer_tracker hwithin hknown htask
  · exact hframe hsame
  by_cases hcomplete : session.tracker.isComplete
  · have hcondition : c.shared.session.tracker.isComplete ∨ c.shared.session.state = .stopped ∨
        ∃ q ∈ c.procs, isDeciding q = true := by
      simp only [Follows, hpoint] at hok
      exact hok (hmarked ▸ hcomplete)
    rcases hcondition with hbefore | hstopped | hdeciding
    · exact hframe (iff_of_true hcomplete hbefore)
    · refine ⟨fun _ => hcomplete, fun hstart => ?_, Or.inl (hstate.trans hstopped)⟩
      exact absurd hstopped (h.started hstart)
    · refine ⟨fun _ => hcomplete, fun hstart => ?_,
        Or.inr (Or.inl (exists_deciding_set hp rfl hdeciding))⟩
      rw [hstate]
      exact h.started hstart
  · exact hframe (iff_of_false hcomplete (mt hstays hcomplete))

/-- A call of `start` decides for the tracker as it then is, and tells the choking manager. -/
theorem Invariant.start (h : Invariant c) (hwithin : Within specs c.shared.session.tracker)
    {b : StartAction} {st st' : Starter} (hp : c.procs[i]? = some (.starter st))
    (hread : TrackerAccounting.ReadOk specs st) (hok : Follows c i (.start b) (.starter st))
    (hstep : StartStep sha1 b c.shared st s st') :
    Invariant ⟨s, c.procs.set i (.starter st')⟩ := by
  have hspecs : c.shared.session.tracker.specs.length =
      c.shared.session.tracker.pieceCount.toNat := by
    rw [hwithin.same, hwithin.count]
  obtain ⟨-, -, hstays⟩ := start_tracker hwithin hread hstep.session
  have hkept : s.isSeeding = c.shared.isSeeding →
      s.isSeeding = true → s.session.tracker.isComplete := by
    intro hsame hyes
    exact hstays (h.seeding (hsame ▸ hyes))
  cases startOutcome_of_turn (SessionTasks.startTurn_of_step hstep.session) with
  | leaves hended hstate hunchanged =>
    have hseeding : s.isSeeding = c.shared.isSeeding := hstep.notSeeding (by rw [hended]; nofun)
    have hsession : s.session = c.shared.session := by
      rcases hunchanged with hsame | ⟨idx, hinside, hnone⟩
      · exact hsame
      · rw [List.getElem?_eq_none_iff] at hnone
        omega
    have hlast : s.lastCall = .start → c.shared.session.state ≠ .stopped := by
      intro hstart
      by_cases hb : b = .starts
      · subst hb
        exact state_of_refused hended hstep.session
      · exact h.started (hstep.notCalled hb ▸ hstart)
    by_cases hdeciding : Deciding st
    · obtain rfl := raises_of_leaves hspecs hdeciding hstep.session hended
      refine ⟨hkept hseeding, fun hstart => ?_, ?_⟩
      · rw [hstate]
        exact hlast hstart
      · rcases hok (isDeciding_iff.mpr hdeciding) with hother | ⟨hdown, hmissing⟩
        · exact Or.inr (Or.inl (exists_set_of_eraseIdx hother))
        · rw [hsession, decidedState_of_incomplete hmissing]
          exact Or.inr (Or.inr ⟨hdown, fun hcomplete => absurd hcomplete hmissing⟩)
    · exact h.frame hp (isDeciding_eq_false hdeciding) (by rw [hsession]) hstate hseeding hlast
  | goesOn hdeciding hstate =>
    have hseeding : s.isSeeding = c.shared.isSeeding := by
      apply hstep.notSeeding
      intro hemit
      obtain ⟨_, hp' | ⟨_, _, _, hp'⟩⟩ := hdeciding
      · cases hemit.symm.trans hp'
      · cases hemit.symm.trans hp'
    have hmem : .starter st' ∈ c.procs.set i (.starter st') :=
      List.mem_set (List.getElem?_eq_some_iff.mp hp).1 _
    refine ⟨hkept hseeding, fun hlast => ?_,
      Or.inr (Or.inl ⟨_, hmem, isDeciding_iff.mpr hdeciding⟩)⟩
    rcases hstate with ⟨-, hchecking⟩ | ⟨hbefore, hsame⟩
    · rw [hchecking]
      nofun
    · have hb : b ≠ .starts := by
        rintro rfl
        exact not_deciding_of_starting (starting_of_starts hstep.session) hbefore
      rw [hsame]
      exact h.started (hstep.notCalled hb ▸ hlast)
  | decides hemit hstate =>
    have hseeding := hstep.seeding hemit
    refine ⟨fun hyes => ?_, fun _ => ?_, Or.inr (Or.inr ⟨hstate, fun hcomplete => ?_⟩)⟩
    · rw [hseeding, Bool.or_eq_true, decide_eq_true_iff] at hyes
      rcases hyes with hyes | hcomplete
      · exact hstays (h.seeding hyes)
      · exact hcomplete
    · rw [hstate]
      exact decidedState_ne_stopped _
    · rw [hseeding, decide_eq_true hcomplete, Bool.or_true]

theorem follows_invariant {tr : Tracker} {storage : Bytes} (hwithin : Within tr.specs tr)
    (h : Reach (program sha1 kind) Kept (initial tr storage) c) : Invariant c := by
  have hchoker : ∀ p ∈ (initial tr storage).procs, Known sha1 tr.specs p := by
    intro p hp
    rw [List.mem_singleton.mp hp]
    trivial
  induction h with
  | refl => exact ⟨nofun, nofun, Or.inl rfl⟩
  | @next c c' m hreach hok happ ih =>
    cases m with
    | spawn p =>
      rw [apply_spawn happ]
      exact ih.spawn p
    | act i a =>
      obtain ⟨p, s, p', hp, hs, rfl⟩ := apply_act happ
      obtain ⟨hnow, hprocs⟩ := pieces_known hwithin hchoker hreach
      have hknown := hprocs p (List.mem_of_getElem? hp)
      have hfollows : Follows c i a p := hok p hp
      cases turn_of_step hs with
      | starter ha hpoint hpoint' hstep =>
        subst ha hpoint hpoint'
        exact ih.start hnow hp hknown hfollows (startStep_cases hstep)
      | peer ha hpoint hpoint' hstep =>
        subst ha hpoint hpoint'
        exact ih.peer hnow hp hknown hfollows hstep
      | stopper hpoint =>
        subst hpoint
        exact hknown.elim
      | joiner hpoint hstep =>
        subst hpoint
        obtain ⟨⟨peers, rfl⟩, -⟩ := joinStep_cases hstep
        exact ih.frame hp rfl Iff.rfl rfl rfl ih.started
      | choker hpoint hpoint' hs' =>
        subst hpoint hpoint' hs'
        exact ih.frame hp rfl Iff.rfl rfl rfl ih.started

theorem Invariant.followsTracker (h : Invariant c) (hlast : c.shared.lastCall = .start)
    (hnone : ∀ p ∈ c.procs, inStart p = false) : FollowsTracker c.shared := by
  rcases h.follows with hstopped | ⟨q, hq, hdeciding⟩ | ⟨hstate, hseeding⟩
  · exact absurd hstopped (h.started hlast)
  · have hin := hnone q hq
    cases q with
    | starter st =>
      cases hin.symm.trans (StoppedSessions.inStart_of_deciding (isDeciding_iff.mp hdeciding))
    | _ => cases hdeciding
  · refine ⟨?_, hseeding, fun hmissing => ⟨?_, ?_⟩⟩
    · rw [hstate, decidedState]
      split
      · next hcomplete => exact iff_of_true rfl hcomplete
      · next hmissing => exact iff_of_false nofun hmissing
    · rw [hstate, decidedState_of_incomplete hmissing]
    · exact Bool.eq_false_iff.mpr fun hyes => hmissing (h.seeding hyes)

theorem within_of_init {pieceLength totalLength : ℤ} {raw : Bytes} {tr : Tracker}
    (h : init pieceLength totalLength raw = some tr) : Within tr.specs tr := by
  obtain ⟨-, -, -, hgot, -⟩ := specs_eq_of_init h
  refine ⟨rfl, specs_length h, fun i hi => ?_⟩
  rw [hgot] at hi
  exact absurd hi (Finset.notMem_empty i)

/-- Where no peer completes the download after `start` has decided, the state and the ranking of the
peers follow the tracker from then on. -/
theorem session_follows {pieceLength totalLength : ℤ} {raw : Bytes} {tr : Tracker}
    (htr : init pieceLength totalLength raw = some tr) (storage : Bytes) (c : Config Control Proc)
    (h : Reach (program sha1 kind) Kept (initial tr storage) c)
    (hlast : c.shared.lastCall = .start) (hnone : ∀ p ∈ c.procs, inStart p = false) :
    FollowsTracker c.shared :=
  (follows_invariant (within_of_init htr) h).followsTracker hlast hnone

def startComplete : List (Move Proc Action) :=
  [.spawn (.starter ⟨∅, 0, .starting⟩), .act 1 (.start .starts), .act 1 (.start .returns)] ++
    List.replicate 20 (.act 1 (.start .fetches)) ++
    [.act 1 (.start .returns), .act 1 (.start .returns)]

theorem session_follows_complete :
    ∃ tr c, init 20 20 (List.replicate 20 7) = some tr ∧
      run (program id .files) (initial tr (List.replicate 20 7)) startComplete = some c ∧
      c.shared.session.tracker.isComplete ∧ FollowsTracker c.shared := by
  obtain ⟨tr, htr⟩ : ∃ tr, init 20 20 (List.replicate 20 7) = some tr := ⟨_, rfl⟩
  obtain ⟨⟨c, hrun, hall⟩, hok⟩ :
      (∃ c, run (program id .files) (initial tr (List.replicate 20 7)) startComplete = some c ∧
        decide (c.shared.lastCall = .start ∧ (∀ p ∈ c.procs, inStart p = false) ∧
          c.shared.session.tracker.isComplete) = true) ∧
      Allowed (program id .files) Kept (initial tr (List.replicate 20 7)) startComplete := by
    obtain rfl := Option.some.inj htr
    exact ⟨(Option.any_eq_true _ _).mp (by decide +kernel), by decide +kernel⟩
  obtain ⟨hlast, hnone, hcomplete⟩ := of_decide_eq_true hall
  exact ⟨tr, c, htr, hrun, hcomplete, session_follows htr _ c (reach_run hok hrun) hlast hnone⟩

/-- A peer delivers the one piece after `start` has decided. The handling of its message is over, and
the session does not seed. -/
theorem completed_downloads :
    ∃ tr c, init 20 20 (List.replicate 20 7) = some tr ∧
      run (program id .files) (initial tr (List.replicate 20 0))
        (startAndJoin ++ deliverAll ++ List.replicate 4 (.act 2 (.peer (.returns 0)))) = some c ∧
      (∀ p ∈ c.procs, rests p = true) ∧ c.shared.lastCall = .start ∧
      c.shared.session.tracker.isComplete ∧ c.shared.session.state = .downloading ∧
      c.shared.isSeeding = false ∧ ¬ FollowsTracker c.shared := by
  obtain ⟨tr, htr⟩ : ∃ tr, init 20 20 (List.replicate 20 7) = some tr := ⟨_, rfl⟩
  obtain ⟨c, hrun, hall⟩ : ∃ c, run (program id .files) (initial tr (List.replicate 20 0))
      (startAndJoin ++ deliverAll ++ List.replicate 4 (.act 2 (.peer (.returns 0)))) = some c ∧
      decide ((∀ p ∈ c.procs, rests p = true) ∧ c.shared.lastCall = .start ∧
        c.shared.session.tracker.isComplete ∧ c.shared.session.state = .downloading ∧
        c.shared.isSeeding = false) = true := by
    obtain rfl := Option.some.inj htr
    exact (Option.any_eq_true _ _).mp (by decide +kernel)
  obtain ⟨hrests, hlast, hcomplete, hstate, hseeding⟩ := of_decide_eq_true hall
  refine ⟨tr, c, htr, hrun, hrests, hlast, hcomplete, hstate, hseeding, fun hfollows => ?_⟩
  cases hseeding.symm.trans (hfollows.2.1 hcomplete)

end SeedingState
