import Aiobt.SessionControl

/-! # Stopped sessions are quiet

Between the return of `stop` and the next `start`, where nothing overlaps a call of `stop`. -/
namespace StoppedSessions

open ByteStrings PieceTracker InterleavedProcesses SessionControl
open PieceEngine (StorageKind)
open SessionTasks (Starter StartAction)

variable {sha1 : Bytes → Bytes} {kind : StorageKind} {c : Config Control Proc}

def inStart : Proc → Bool
  | .starter st =>
    match st.point with
    | .starting => false
    | .ended => false
    | _ => true
  | _ => false

def inStop : Proc → Bool
  | .stopper .starting => false
  | .stopper .returned => false
  | .stopper .raised => false
  | .stopper _ => true
  | _ => false

def isLive : Proc → Bool
  | .peer t => decide (t.point ≠ .ended)
  | _ => false

def returnsFrom (s : Control) : StopPoint → Bool
  | .starting => decide (s.session.state = .stopped)
  | .announcing => true
  | _ => false

/-- A start takes effect only while no stop is in progress; a stop is called only while no start is
in progress, and returns only while no `run_peer` task is alive; and no such task is created
between the return of a stop and the next start. -/
def MayStep (c : Config Control Proc) : Action → Proc → Prop
  | .start .starts, .starter _ =>
    c.shared.session.state = .downloading ∨ c.shared.session.state = .seeding ∨
      ∀ p ∈ c.procs, inStop p = false
  | .proceeds, .stopper point =>
    (point = .starting → ∀ p ∈ c.procs, inStart p = false) ∧
      (returnsFrom c.shared point = true → ∀ p ∈ c.procs, isLive p = false)
  | .proceeds, .joiner _ _ point => point = .emitting → c.shared.lastCall ≠ .stop
  | _, _ => True

instance (c : Config Control Proc) : (a : Action) → (p : Proc) → Decidable (MayStep c a p)
  | .start .starts, .starter _ => inferInstanceAs (Decidable (_ ∨ _))
  | .start .starts, .stopper _ => .isTrue trivial
  | .start .starts, .joiner _ _ _ => .isTrue trivial
  | .start .starts, .peer _ => .isTrue trivial
  | .start .starts, .choker => .isTrue trivial
  | .start .returns, _ => .isTrue trivial
  | .start .raises, _ => .isTrue trivial
  | .start .fails, _ => .isTrue trivial
  | .start .fetches, _ => .isTrue trivial
  | .peer _, _ => .isTrue trivial
  | .proceeds, .starter _ => .isTrue trivial
  | .proceeds, .stopper _ => inferInstanceAs (Decidable (_ ∧ _))
  | .proceeds, .joiner _ _ _ => inferInstanceAs (Decidable (_ → _))
  | .proceeds, .peer _ => .isTrue trivial
  | .proceeds, .choker => .isTrue trivial
  | .fails, _ => .isTrue trivial
  | .ends _, _ => .isTrue trivial

def Apart (c : Config Control Proc) : Move Proc Action → Prop
  | .spawn p => Fresh p
  | .act i a => ∀ p ∈ c.procs[i]?, MayStep c a p

instance (c : Config Control Proc) : (m : Move Proc Action) → Decidable (Apart c m)
  | .spawn p => inferInstanceAs (Decidable (Fresh p))
  | .act i a => inferInstanceAs (Decidable (∀ p ∈ c.procs[i]?, MayStep c a p))

/-- What holds between the return of a stop and the next start. -/
structure Quiet (c : Config Control Proc) : Prop where
  state : c.shared.session.state = .stopped
  choking : c.shared.chokingRuns = ∅
  peers : ∀ p ∈ c.procs, isLive p = false

structure Invariant (c : Config Control Proc) : Prop where
  exclusive : (∀ p ∈ c.procs, inStart p = false) ∨ ∀ p ∈ c.procs, inStop p = false
  working : ∀ p ∈ c.procs, inStart p = true → c.shared.session.state ≠ .stopped
  single : ∀ task ∈ c.shared.chokingRuns, c.shared.chokingTask = some task
  waits : ∀ task, .stopper (.choking task) ∈ c.procs → ∀ other ∈ c.shared.chokingRuns, other = task
  down : c.shared.session.state = .stopped → c.shared.chokingRuns = ∅
  done : ∀ p ∈ c.procs, p = .stopper .emitting ∨ p = .stopper .announcing →
    c.shared.session.state = .stopped
  quiet : c.shared.lastCall = .stop → c.shared.session.state = .stopped ∧ ∀ p ∈ c.procs, isLive p = false

theorem Invariant.isQuiet (h : Invariant c) (hstop : c.shared.lastCall = .stop) : Quiet c :=
  ⟨(h.quiet hstop).1, h.down (h.quiet hstop).1, (h.quiet hstop).2⟩

structure Calmer (s : Control) (p p' : Proc) : Prop where
  start : inStart p' = true → inStart p = true
  stop : inStop p' = true → inStop p = true
  waits : ∀ task, p' = .stopper (.choking task) → p = .stopper (.choking task)
  done : p' = .stopper .emitting ∨ p' = .stopper .announcing → s.session.state = .stopped
  live : s.lastCall = .stop → isLive p' = false

theorem Invariant.frame (h : Invariant c) {i : ℕ} {p p' : Proc} {s : Control}
    (hp : c.procs[i]? = some p) (hstate : s.session.state = c.shared.session.state)
    (htask : s.chokingTask = c.shared.chokingTask) (hruns : s.chokingRuns ⊆ c.shared.chokingRuns)
    (hlast : s.lastCall = .stop → c.shared.lastCall = .stop) (hcalm : Calmer c.shared p p') :
    Invariant ⟨s, c.procs.set i p'⟩ where
  exclusive := by
    have hmem := List.mem_of_getElem? hp
    rcases h.exclusive with hnone | hnone
    · refine Or.inl (forall_mem_set hnone (Bool.eq_false_iff.mpr fun hin => ?_))
      cases (hnone p hmem).symm.trans (hcalm.start hin)
    · refine Or.inr (forall_mem_set hnone (Bool.eq_false_iff.mpr fun hin => ?_))
      cases (hnone p hmem).symm.trans (hcalm.stop hin)
  working := by
    rw [hstate]
    exact forall_mem_set h.working fun hin => h.working p (List.mem_of_getElem? hp) (hcalm.start hin)
  single := by
    intro task hrun
    rw [htask]
    exact h.single task (hruns hrun)
  waits := by
    intro task hq other hrun
    refine h.waits task ?_ other (hruns hrun)
    rcases mem_set_cases hq with heq | hq
    · rw [← hcalm.waits task heq.symm]
      exact List.mem_of_getElem? hp
    · exact hq
  down := by
    intro hstopped
    rw [hstate] at hstopped
    exact Finset.subset_empty.mp (h.down hstopped ▸ hruns)
  done := by
    rw [hstate]
    exact forall_mem_set h.done hcalm.done
  quiet := by
    intro hstop
    have hstop' := hlast hstop
    exact ⟨hstate.trans (h.quiet hstop').1, forall_mem_set (h.quiet hstop').2 (hcalm.live hstop')⟩

theorem inStart_iff {st : Starter} :
    inStart (.starter st) = true ↔ st.point ≠ .starting ∧ st.point ≠ .ended := by
  unfold inStart
  cases hp : st.point <;> simp [hp]

theorem inStart_of_deciding {st : Starter} (h : Deciding st) : inStart (.starter st) = true := by
  rw [inStart_iff]
  obtain ⟨todo, hp | ⟨idx, spec, data, hp⟩⟩ := h
  · rw [hp]
    exact ⟨nofun, nofun⟩
  · rw [hp]
    exact ⟨nofun, nofun⟩

theorem createChoking_cases (s : Control) :
    createChoking s = s ∨ (∀ task, s.chokingTask = some task → task ∉ s.chokingRuns) ∧
      (createChoking s).chokingTask = some s.chokingTasks ∧
      (createChoking s).chokingRuns = insert s.chokingTasks s.chokingRuns := by
  unfold createChoking
  split
  · next hnone =>
    refine Or.inr ⟨fun task htask => ?_, rfl, rfl⟩
    cases hnone.symm.trans htask
  · next task htask =>
    split
    · exact Or.inl rfl
    · next hdone =>
      refine Or.inr ⟨fun other hother => ?_, rfl, rfl⟩
      obtain rfl := Option.some.inj (htask.symm.trans hother)
      exact hdone

theorem createChoking_single {s : Control}
    (h : ∀ task ∈ s.chokingRuns, s.chokingTask = some task) :
    ∀ task ∈ (createChoking s).chokingRuns, (createChoking s).chokingTask = some task := by
  rcases createChoking_cases s with hsame | ⟨hdone, htask, hruns⟩
  · rw [hsame]
    exact h
  · rw [htask, hruns]
    intro task hrun
    rcases Finset.mem_insert.mp hrun with rfl | hrun
    · rfl
    · exact (hdone task (h task hrun) hrun).elim

theorem starting_of_not_inStart {b : StartAction} {s s' : PieceEngine.Session} {st st' : Starter}
    (hnot : inStart (.starter st) ≠ true)
    (h : SessionTasks.startStep sha1 b s st = some (s', st')) : st.point = .starting := by
  by_contra hne
  have hended : st.point = .ended := by
    by_contra hne'
    exact hnot (inStart_iff.mpr ⟨hne, hne'⟩)
  cases b <;> simp [SessionTasks.startStep, hended] at h

/-- A call of `start` never puts the session into the state `STOPPED`. -/
theorem ne_stopped_of_startStep {b : StartAction} {s s' : PieceEngine.Session} {st st' : Starter}
    (hstate : s.state ≠ .stopped) (h : SessionTasks.startStep sha1 b s st = some (s', st')) :
    s'.state ≠ .stopped := by
  cases startOutcome_of_turn (SessionTasks.startTurn_of_step h) with
  | leaves _ hsame _ => exact hsame ▸ hstate
  | goesOn _ hwhy =>
    rcases hwhy with ⟨-, hchecking⟩ | ⟨-, hsame⟩
    · rw [hchecking]
      nofun
    · exact hsame ▸ hstate
  | decides _ hdecided =>
    rw [hdecided]
    exact decidedState_ne_stopped _

/-- Nor does one that begins leave it in this state. -/
theorem ne_stopped_of_checkResume (s : PieceEngine.Session) (st : Starter) :
    (SessionTasks.checkResume s st).1.state ≠ .stopped := by
  rcases checkResume_outcome s st with ⟨-, hdecided⟩ | ⟨-, hchecking⟩
  · rw [hdecided]
    exact decidedState_ne_stopped _
  · rw [hchecking]
    nofun

/-- A start is in progress before or after the step, and no stop is. -/
theorem Invariant.active {i : ℕ} {st' : Starter} {s : Control}
    (hnone : ∀ p ∈ c.procs, inStop p = false) (hstate : s.session.state ≠ .stopped)
    (hsingle : ∀ task ∈ s.chokingRuns, s.chokingTask = some task) (hlast : s.lastCall ≠ .stop) :
    Invariant ⟨s, c.procs.set i (.starter st')⟩ := by
  have hnone' : ∀ p ∈ c.procs.set i (.starter st'), inStop p = false := forall_mem_set hnone rfl
  refine ⟨Or.inr hnone', fun _ _ _ => hstate, hsingle, ?_, fun hstopped => absurd hstopped hstate, ?_,
    fun hstop => absurd hstop hlast⟩
  · intro task hwaits
    cases hnone' _ hwaits
  · intro p hp hpoint
    rcases hpoint with rfl | rfl
    · cases hnone' _ hp
    · cases hnone' _ hp

theorem Invariant.start (h : Invariant c) {i : ℕ} {b : StartAction} {st st' : Starter} {s : Control}
    (hp : c.procs[i]? = some (.starter st)) (hok : MayStep c (.start b) (.starter st))
    (hstep : StartStep sha1 b c.shared st s st') :
    Invariant ⟨s, c.procs.set i (.starter st')⟩ := by
  have hmem := List.mem_of_getElem? hp
  have hlast : s.lastCall = .stop → c.shared.lastCall = .stop := by
    intro hstop
    by_cases hb : b = .starts
    · cases (hstep.called hb).symm.trans hstop
    · exact (hstep.notCalled hb).symm.trans hstop
  by_cases hbefore : inStart (.starter st) = true
  · -- The call was in progress: the session is not stopped.
    have hnone : ∀ p ∈ c.procs, inStop p = false := by
      rcases h.exclusive with hno | hno
      · cases (hno _ hmem).symm.trans hbefore
      · exact hno
    have hworking := h.working _ hmem hbefore
    have hstate := ne_stopped_of_startStep hworking hstep.session
    refine Invariant.active hnone hstate ?_ fun hstop => hworking (h.quiet (hlast hstop)).1
    rcases hstep.choking with ⟨htask, hruns⟩ | ⟨-, -, hcreated⟩
    · rw [htask, hruns]
      exact h.single
    · rw [hcreated]
      exact createChoking_single h.single
  · have hchoking : s.chokingTask = c.shared.chokingTask ∧ s.chokingRuns = c.shared.chokingRuns := by
      rcases hstep.choking with hsame | ⟨-, hpoint, -⟩
      · exact hsame
      · rw [inStart_iff, hpoint] at hbefore
        exact (hbefore ⟨nofun, nofun⟩).elim
    have hstarting := starting_of_not_inStart hbefore hstep.session
    rcases starting_cases hstarting hstep.session with ⟨hsession, hended, -⟩ |
      ⟨rfl, hneither, hcheck⟩
    · have hnot : inStart (.starter st') ≠ true := by
        rw [Ne, inStart_iff, hended]
        intro hboth
        exact hboth.2 rfl
      refine h.frame hp (by rw [hsession]) hchoking.1 hchoking.2.subset hlast ?_
      exact ⟨fun hin => absurd hin hnot, nofun, nofun, nofun, fun _ => rfl⟩
    · have hnone : ∀ p ∈ c.procs, inStop p = false := by
        rcases hok with hd | hs | hno
        · exact absurd (Or.inl hd) hneither
        · exact absurd (Or.inr hs) hneither
        · exact hno
      have hcalled := hstep.called rfl
      have hstate : s.session.state ≠ .stopped := by
        have hchecked := ne_stopped_of_checkResume c.shared.session st
        rw [hcheck] at hchecked
        exact hchecked
      refine Invariant.active hnone hstate ?_ (by rw [hcalled]; nofun)
      rw [hchoking.1, hchoking.2]
      exact h.single

theorem Invariant.takesEffect (h : Invariant c) {i : ℕ} {s : Control}
    (hnone : ∀ p ∈ c.procs, inStart p = false) (hstate : s.session.state = .stopped)
    (hruns : s.chokingRuns = ∅) (hlast : s.lastCall = c.shared.lastCall) :
    Invariant ⟨s, c.procs.set i (.stopper .emitting)⟩ := by
  have hnone' : ∀ p ∈ c.procs.set i (.stopper .emitting), inStart p = false :=
    forall_mem_set hnone rfl
  refine ⟨Or.inl hnone', fun p hp hin => ?_, ?_, ?_, fun _ => hruns, fun _ _ _ => hstate, ?_⟩
  · cases (hnone' p hp).symm.trans hin
  · intro task hrun
    rw [hruns] at hrun
    exact absurd hrun (Finset.notMem_empty task)
  · intro task _ other hrun
    rw [hruns] at hrun
    exact absurd hrun (Finset.notMem_empty other)
  · intro hstop
    exact ⟨hstate, forall_mem_set (h.quiet (hlast ▸ hstop)).2 rfl⟩

theorem Invariant.awaits (h : Invariant c) {i task : ℕ} (hnone : ∀ p ∈ c.procs, inStart p = false)
    (honly : ∀ other ∈ c.shared.chokingRuns, other = task) :
    Invariant ⟨c.shared, c.procs.set i (.stopper (.choking task))⟩ := by
  have hnone' : ∀ p ∈ c.procs.set i (.stopper (.choking task)), inStart p = false :=
    forall_mem_set hnone rfl
  refine ⟨Or.inl hnone', fun p hp hin => ?_, h.single, ?_, h.down, ?_, fun hstop => ?_⟩
  · cases (hnone' p hp).symm.trans hin
  · intro waited hwaits other hrun
    rcases mem_set_cases hwaits with heq | hmem
    · cases heq
      exact honly other hrun
    · exact h.waits waited hmem other hrun
  · exact forall_mem_set h.done fun hpoint => hpoint.elim nofun nofun
  · exact ⟨(h.quiet hstop).1, forall_mem_set (h.quiet hstop).2 rfl⟩

theorem Invariant.returns (h : Invariant c) {i : ℕ} {point : StopPoint}
    (hp : c.procs[i]? = some (.stopper point)) (hstate : c.shared.session.state = .stopped)
    (hlive : ∀ p ∈ c.procs, isLive p = false) :
    Invariant ⟨{ c.shared with lastCall := .stop }, c.procs.set i (.stopper .returned)⟩ := by
  have hcalm : Calmer c.shared (.stopper point) (.stopper .returned) :=
    ⟨nofun, nofun, nofun, fun hpoint => hpoint.elim nofun nofun, fun _ => rfl⟩
  have hframe := h.frame (s := c.shared) hp rfl rfl (Finset.Subset.refl _) id hcalm
  exact ⟨hframe.exclusive, hframe.working, hframe.single, hframe.waits, hframe.down, hframe.done,
    fun _ => ⟨hstate, forall_mem_set hlive rfl⟩⟩

theorem Invariant.stop (h : Invariant c) {i : ℕ} {a : Action} {point point' : StopPoint} {s : Control}
    (hp : c.procs[i]? = some (.stopper point)) (hok : MayStep c a (.stopper point))
    (hstep : stopStep a c.shared point = some (s, point')) :
    Invariant ⟨s, c.procs.set i (.stopper point')⟩ := by
  have hmem := List.mem_of_getElem? hp
  have hnone : inStop (.stopper point) = true → ∀ p ∈ c.procs, inStart p = false := by
    intro hin
    rcases h.exclusive with hno | hno
    · exact hno
    · cases (hno _ hmem).symm.trans hin
  have hraises : Calmer c.shared (.stopper point) (.stopper .raised) :=
    ⟨nofun, nofun, nofun, fun hpoint => hpoint.elim nofun nofun, fun _ => rfl⟩
  have hframe : ∀ {q}, Calmer c.shared (.stopper point) q → Invariant ⟨c.shared, c.procs.set i q⟩ :=
    fun hcalm => h.frame hp rfl rfl (Finset.Subset.refl _) id hcalm
  unfold stopStep at hstep
  split at hstep
  · split at hstep
    · next hstopped =>
      cases hstep
      exact h.returns hp hstopped (hok.2 (by simpa [returnsFrom] using hstopped))
    · have hstarts := hok.1 rfl
      have heq := Option.some.inj hstep
      unfold stopChoking at heq
      split at heq
      · next htask =>
        cases heq
        refine h.takesEffect hstarts rfl ?_ rfl
        apply Finset.eq_empty_of_forall_notMem
        intro task hrun
        cases htask.symm.trans (h.single task hrun)
      · next task htask =>
        split at heq
        · next hruns =>
          cases heq
          exact h.awaits hstarts fun other hrun =>
            Option.some.inj ((h.single other hrun).symm.trans htask)
        · next hdone =>
          cases heq
          refine h.takesEffect hstarts rfl ?_ rfl
          apply Finset.eq_empty_of_forall_notMem
          intro other hrun
          obtain rfl := Option.some.inj (htask.symm.trans (h.single other hrun))
          exact hdone hrun
  · next task =>
    split at hstep
    · cases hstep
    · next hdone =>
      cases hstep
      refine h.takesEffect (hnone rfl) rfl ?_ rfl
      apply Finset.eq_empty_of_forall_notMem
      intro other hrun
      obtain rfl := h.waits task hmem other hrun
      exact hdone hrun
  · cases hstep
    exact hframe ⟨nofun, fun _ => rfl, nofun, fun _ => h.done _ hmem (Or.inl rfl), fun _ => rfl⟩
  · cases hstep
    exact h.returns hp (h.done _ hmem (Or.inr rfl)) (hok.2 rfl)
  · cases hstep
    exact hframe hraises
  · cases hstep
    exact hframe hraises
  · cases hstep
    exact hframe hraises
  · cases hstep
    exact hframe hraises
  · cases hstep

theorem Invariant.join (h : Invariant c) {i : ℕ} {a : Action} {incoming : Bool}
    {addr : PieceEngine.Address} {point : JoinPoint} {s : Control} {p' : Proc}
    (hp : c.procs[i]? = some (.joiner incoming addr point))
    (hok : MayStep c a (.joiner incoming addr point))
    (hstep : joinStep a c.shared incoming addr point = some (s, p')) :
    Invariant ⟨s, c.procs.set i p'⟩ := by
  obtain ⟨⟨peers, rfl⟩, ⟨point', rfl⟩ | ⟨rfl, rfl, rfl⟩⟩ := joinStep_cases hstep
  · refine h.frame hp rfl rfl (Finset.Subset.refl _) id ⟨nofun, nofun, nofun, ?_, fun _ => rfl⟩
    intro hpoint
    exact hpoint.elim nofun nofun
  · refine h.frame hp rfl rfl (Finset.Subset.refl _) id ⟨nofun, nofun, nofun, ?_, fun hstop => ?_⟩
    · intro hpoint
      exact hpoint.elim nofun nofun
    · exact (hok rfl hstop).elim

theorem taskStep_ended {a : PieceEngine.Action} {s s' : PieceEngine.Session} {t t' : PieceEngine.Task}
    (hended : t.point = .ended) (h : PieceEngine.taskStep sha1 kind a s t = some (s', t')) :
    t'.point = .ended := by
  cases a with
  | rechokes amChoking =>
    simp only [PieceEngine.taskStep] at h
    split at h
    · cases h
    · cases h
      exact hended
  | returns hint => simp [PieceEngine.taskStep, PieceEngine.resume, hended] at h
  | cancels addr connected hint => simp [PieceEngine.taskStep, PieceEngine.cancelStep, hended] at h
  | _ => simp [PieceEngine.taskStep, hended] at h

theorem Invariant.peer (h : Invariant c) {i : ℕ} {a : PieceEngine.Action} {t t' : PieceEngine.Task}
    {s : Control} (hp : c.procs[i]? = some (.peer t))
    (hstep : peerStep sha1 kind a c.shared t = some (s, t')) :
    Invariant ⟨s, c.procs.set i (.peer t')⟩ := by
  obtain ⟨session, peers, htask, rfl⟩ := peerStep_cases hstep
  refine h.frame hp (taskStep_state htask) rfl (Finset.Subset.refl _) id
    ⟨nofun, nofun, nofun, fun hpoint => hpoint.elim nofun nofun, fun hstop => ?_⟩
  have hdead := (h.quiet hstop).2 _ (List.mem_of_getElem? hp)
  have hended : t.point = .ended := by simpa [isLive] using hdead
  simpa [isLive] using taskStep_ended hended htask

theorem fresh_calm {p : Proc} (h : Fresh p) : inStart p = false ∧ inStop p = false ∧
    isLive p = false ∧ ∀ point, p = .stopper point → point = .starting := by
  cases p with
  | starter st =>
    refine ⟨?_, rfl, rfl, nofun⟩
    have hpoint : st.point = .starting := h
    simp [inStart, hpoint]
  | stopper point =>
    obtain rfl : point = .starting := h
    exact ⟨rfl, rfl, rfl, fun _ heq => (Proc.stopper.inj heq).symm⟩
  | joiner incoming addr point => exact ⟨rfl, rfl, rfl, nofun⟩
  | peer t => cases h
  | choker => cases h

theorem Invariant.spawn (h : Invariant c) {p : Proc} (hfresh : Fresh p) :
    Invariant { c with procs := c.procs ++ [p] } := by
  obtain ⟨hstart, hstop, hlive, hpoint⟩ := fresh_calm hfresh
  refine ⟨?_, forall_mem_concat h.working fun hin => ?_, h.single, fun task hwaits => ?_, h.down,
    forall_mem_concat h.done fun heq => ?_,
    fun hcalled => ⟨(h.quiet hcalled).1, forall_mem_concat (h.quiet hcalled).2 hlive⟩⟩
  · rcases h.exclusive with hnone | hnone
    · exact Or.inl (forall_mem_concat hnone hstart)
    · exact Or.inr (forall_mem_concat hnone hstop)
  · cases hstart.symm.trans hin
  · rcases List.mem_append.mp hwaits with hmem | hmem
    · exact h.waits task hmem
    · cases hpoint _ (List.mem_singleton.mp hmem).symm
  · rcases heq with heq | heq
    · cases hpoint _ heq
    · cases hpoint _ heq

theorem apart_invariant {tracker : Tracker} {storage : Bytes}
    (h : Reach (program sha1 kind) Apart (initial tracker storage) c) : Invariant c := by
  refine h.invariant (I := Invariant) ?_ ?_ ?_
  · refine ⟨Or.inl ?_, ?_, ?_, ?_, fun _ => rfl, ?_, nofun⟩
    · intro p hp
      rw [List.mem_singleton.mp hp]
      rfl
    · intro p hp hin
      rw [List.mem_singleton.mp hp] at hin
      cases hin
    · intro task hrun
      exact absurd hrun (Finset.notMem_empty task)
    · intro task hwaits
      cases List.mem_singleton.mp hwaits
    · intro p hp hpoint
      rw [List.mem_singleton.mp hp] at hpoint
      exact hpoint.elim nofun nofun
  · intro c p ih hfresh
    exact ih.spawn hfresh
  · intro c i a p s p' ih hok hp hs
    have hmay : MayStep c a p := hok p hp
    cases turn_of_step hs with
    | starter ha hpoint hpoint' hstep =>
      subst ha hpoint hpoint'
      exact ih.start hp hmay (startStep_cases hstep)
    | peer ha hpoint hpoint' hstep =>
      subst ha hpoint hpoint'
      exact ih.peer hp hstep
    | stopper hpoint hpoint' hstep =>
      subst hpoint hpoint'
      exact ih.stop hp hmay hstep
    | joiner hpoint hstep =>
      subst hpoint
      exact ih.join hp hmay hstep
    | choker hpoint hpoint' hs' =>
      subst hpoint hpoint' hs'
      refine ih.frame hp rfl rfl (Finset.erase_subset _ _) id ?_
      exact ⟨nofun, nofun, nofun, fun hpoint => hpoint.elim nofun nofun, fun _ => rfl⟩

/-- Where calls of `start` and `stop` do not overlap and no peer is connected to a session that is
being stopped or is stopped, the session is quiet from the return of `stop` to the next `start`. -/
theorem stopped_quiet (tracker : Tracker) (storage : Bytes) (c : Config Control Proc)
    (h : Reach (program sha1 kind) Apart (initial tracker storage) c)
    (hstop : c.shared.lastCall = .stop) : Quiet c :=
  (apart_invariant h).isQuiet hstop

/-- A torrent of one piece is started, of which nothing can be read, and a peer is added. -/
def startAndJoin : List (Move Proc Action) :=
  [.spawn (.starter ⟨∅, 0, .starting⟩), .act 1 (.start .starts), .act 1 (.start .returns),
    .act 1 (.start .fails), .act 1 (.start .returns), .spawn (.joiner false ⟨[97], 6881⟩ .starting),
    .act 2 .proceeds, .act 2 .proceeds, .act 2 .proceeds, .act 2 (.peer .starts),
    .act 2 (.peer (.returns 0))]

def stopAll : List (Move Proc Action) :=
  [.spawn (.stopper .starting), .act 3 .proceeds, .act 0 (.ends 0), .act 3 .proceeds,
    .act 3 .proceeds, .act 3 .proceeds]

theorem stopped_quiet_alone :
    ∃ tr c, init 20 20 (List.replicate 20 7) = some tr ∧
      run (program id .files) (initial tr (List.replicate 20 0))
        (startAndJoin ++ [.act 2 (.peer .raises), .act 2 (.peer (.returns 0))] ++ stopAll) = some c ∧
      c.shared.lastCall = .stop ∧ Quiet c := by
  obtain ⟨tr, htr⟩ : ∃ tr, init 20 20 (List.replicate 20 7) = some tr := ⟨_, rfl⟩
  obtain ⟨⟨c, hrun, hstop⟩, hok⟩ :
      (∃ c, run (program id .files) (initial tr (List.replicate 20 0))
        (startAndJoin ++ [.act 2 (.peer .raises), .act 2 (.peer (.returns 0))] ++ stopAll) = some c ∧
        decide (c.shared.lastCall = .stop) = true) ∧
      Allowed (program id .files) Apart (initial tr (List.replicate 20 0))
        (startAndJoin ++ [.act 2 (.peer .raises), .act 2 (.peer (.returns 0))] ++ stopAll) := by
    obtain rfl := Option.some.inj htr
    exact ⟨(Option.any_eq_true _ _).mp (by decide +kernel), by decide +kernel⟩
  have hstop' := of_decide_eq_true hstop
  exact ⟨tr, c, htr, hrun, hstop', stopped_quiet tr _ c (reach_run hok hrun) hstop'⟩

/-- What the peer sends after `stop` has returned. -/
def deliverAll : List (Move Proc Action) :=
  [.act 2 (.peer (.receives (.bitfield [128]) 0)), .act 2 (.peer (.returns 0)),
    .act 2 (.peer (.receives .unchoke 0)), .act 2 (.peer (.returns 0)),
    .act 2 (.peer (.receives (.piece 0 0 (List.replicate 20 7)) 0)), .act 2 (.peer (.returns 0))]

theorem stopped_downloads :
    ∃ tr c, init 20 20 (List.replicate 20 7) = some tr ∧
      run (program id .files) (initial tr (List.replicate 20 0))
        (startAndJoin ++ stopAll ++ deliverAll) = some c ∧
      c.shared.lastCall = .stop ∧ c.shared.session.tracker.got = {0} ∧ ¬ Quiet c := by
  obtain ⟨tr, htr⟩ : ∃ tr, init 20 20 (List.replicate 20 7) = some tr := ⟨_, rfl⟩
  obtain ⟨c, hrun, hall⟩ : ∃ c, run (program id .files) (initial tr (List.replicate 20 0))
      (startAndJoin ++ stopAll ++ deliverAll) = some c ∧
      decide (c.shared.lastCall = .stop ∧ c.shared.session.tracker.got = {0} ∧
        ∃ p ∈ c.procs, isLive p = true) = true := by
    obtain rfl := Option.some.inj htr
    exact (Option.any_eq_true _ _).mp (by decide +kernel)
  obtain ⟨hstop, hgot, p, hmem, hlive⟩ := of_decide_eq_true hall
  refine ⟨tr, c, htr, hrun, hstop, hgot, fun hquiet => ?_⟩
  cases (hquiet.peers p hmem).symm.trans hlive

end StoppedSessions
