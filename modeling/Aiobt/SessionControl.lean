import Aiobt.EngineTurns

/-! # Controlling a session

`TorrentHandle.start` and `stop`, `add_peer` and incoming connections up to their `run_peer` tasks,
and the tasks of the choking manager, as they share one session. -/
namespace SessionControl

open ByteStrings PieceTracker PieceEngine SessionTasks EngineTurns InterleavedProcesses

inductive LastCall where
  | nothing
  | start
  | stop
  deriving DecidableEq, Repr

structure Control where
  session : Session
  isSeeding : Bool
  chokingTask : Option ℕ
  chokingRuns : Finset ℕ
  chokingTasks : ℕ
  peers : Finset Address
  lastCall : LastCall

/-- Where `stop` waits. `session.task` is never set. -/
inductive StopPoint where
  | starting
  | choking (task : ℕ)
  | emitting
  | announcing
  | returned
  | raised
  deriving DecidableEq, Repr

/-- Where `add_peer` or `_handle_incoming` waits, up to the creation of its task. -/
inductive JoinPoint where
  | starting
  | connecting
  | emitting
  | ended
  deriving DecidableEq, Repr

inductive Proc where
  | starter (st : Starter)
  | stopper (point : StopPoint)
  | joiner (incoming : Bool) (addr : Address) (point : JoinPoint)
  | peer (t : Task)
  | choker

inductive Action where
  | start (a : StartAction)
  | peer (a : PieceEngine.Action)
  /-- A call of `stop`, `add_peer` or `_handle_incoming` runs on to its next await. -/
  | proceeds
  /-- What such a call awaits raises, or it is cancelled. -/
  | fails
  /-- A task of `choking.run` is done: it was cancelled, or an exception has ended it. -/
  | ends (task : ℕ)

/-- `start` after `check_resume` also tells the choking manager. -/
def decided (s : Control) (session : Session) (st : Starter) : Control :=
  match st.point with
  | .emitStarted =>
    { s with session := session, isSeeding := s.isSeeding || decide session.tracker.isComplete }
  | _ => { s with session := session }

def createChoking (s : Control) : Control :=
  match s.chokingTask with
  | none =>
    { s with
      chokingTask := some s.chokingTasks
      chokingRuns := insert s.chokingTasks s.chokingRuns
      chokingTasks := s.chokingTasks + 1 }
  | some task =>
    if task ∈ s.chokingRuns then s
    else
      { s with
        chokingTask := some s.chokingTasks
        chokingRuns := insert s.chokingTasks s.chokingRuns
        chokingTasks := s.chokingTasks + 1 }

def startStep (sha1 : Bytes → Bytes) (a : StartAction) (s : Control) (st : Starter) :
    Option (Control × Starter) :=
  match SessionTasks.startStep sha1 a s.session st with
  | none => none
  | some (session, st') =>
    match a, st.point with
    | .starts, _ => some ({ decided s session st' with lastCall := .start }, st')
    | .returns, .emitStarted => some (createChoking { s with session := session }, st')
    | _, _ => some (decided s session st', st')

def setStopped (s : Control) : Control :=
  { s with session := { s.session with
      state := .stopped
      events := s.session.events ++ [.stateChanged s.session.state .stopped] } }

def stopChoking (s : Control) : Control × StopPoint :=
  match s.chokingTask with
  | none => (setStopped s, .emitting)
  | some task => if task ∈ s.chokingRuns then (s, .choking task) else (setStopped s, .emitting)

def stopStep : Action → Control → StopPoint → Option (Control × StopPoint)
  | .proceeds, s, .starting =>
    if s.session.state = .stopped then some ({ s with lastCall := .stop }, .returned)
    else some (stopChoking s)
  | .proceeds, s, .choking task =>
    if task ∈ s.chokingRuns then none else some (setStopped { s with chokingTask := none }, .emitting)
  | .proceeds, s, .emitting => some (s, .announcing)
  | .proceeds, s, .announcing => some ({ s with lastCall := .stop }, .returned)
  | .fails, s, .starting => some (s, .raised)
  | .fails, s, .choking _ => some (s, .raised)
  | .fails, s, .emitting => some (s, .raised)
  | .fails, s, .announcing => some (s, .raised)
  | _, _, _ => none

/-- Only `add_peer` looks whether the address is known, before it connects. -/
def joinStep : Action → Control → Bool → Address → JoinPoint → Option (Control × Proc)
  | .proceeds, s, incoming, addr, .starting =>
    if incoming = false ∧ addr ∈ s.peers then some (s, .joiner incoming addr .ended)
    else some (s, .joiner incoming addr .connecting)
  | .proceeds, s, incoming, addr, .connecting =>
    some ({ s with peers := insert addr s.peers }, .joiner incoming addr .emitting)
  | .proceeds, s, _, addr, .emitting => some (s, .peer (newTask addr true (some ⟨true, false, 0, 0⟩)))
  | .fails, s, incoming, addr, .starting => some (s, .joiner incoming addr .ended)
  | .fails, s, incoming, addr, .connecting => some (s, .joiner incoming addr .ended)
  | .fails, s, incoming, addr, .emitting => some (s, .joiner incoming addr .ended)
  | _, _, _, _, _ => none

/-- A step of `run_peer`; `_run_peer_wrapper` takes the peer out of the session at its end. -/
def peerStep (sha1 : Bytes → Bytes) (kind : StorageKind) (a : PieceEngine.Action) (s : Control)
    (t : Task) : Option (Control × Task) :=
  (taskStep sha1 kind a s.session t).map fun next =>
    ({ s with
        session := next.1
        peers := if next.2.point = .ended then s.peers.erase t.addr else s.peers }, next.2)

def program (sha1 : Bytes → Bytes) (kind : StorageKind) : Program Control Proc Action
  | .start a, s, .starter st => (startStep sha1 a s st).map fun next => (next.1, .starter next.2)
  | .peer a, s, .peer t => (peerStep sha1 kind a s t).map fun next => (next.1, .peer next.2)
  | a, s, .stopper point => (stopStep a s point).map fun next => (next.1, .stopper next.2)
  | a, s, .joiner incoming addr point => joinStep a s incoming addr point
  | .ends task, s, .choker =>
    if task ∈ s.chokingRuns then some ({ s with chokingRuns := s.chokingRuns.erase task }, .choker)
    else none
  | _, _, _ => none

def Fresh : Proc → Prop
  | .starter st => st.point = .starting
  | .stopper point => point = .starting
  | .joiner _ _ point => point = .starting
  | .peer _ => False
  | .choker => False

instance : (p : Proc) → Decidable (Fresh p)
  | .starter st => inferInstanceAs (Decidable (st.point = .starting))
  | .stopper point => inferInstanceAs (Decidable (point = .starting))
  | .joiner _ _ point => inferInstanceAs (Decidable (point = .starting))
  | .peer _ => .isFalse not_false
  | .choker => .isFalse not_false

def initial (tracker : Tracker) (storage : Bytes) : Config Control Proc :=
  ⟨⟨newSession tracker storage, false, none, ∅, 0, ∅, .nothing⟩, [.choker]⟩

section
variable {sha1 : Bytes → Bytes} {kind : StorageKind} {hint : ℕ} {s : Session} {t : Task}

@[simp] theorem nextPiece_state : (nextPiece hint s t).1.state = s.state := by
  unfold nextPiece
  split <;> rfl

@[simp] theorem finishPiece_state : (finishPiece hint s t).1.state = s.state := by
  unfold finishPiece
  split
  · rfl
  · split
    · rfl
    · exact nextPiece_state

@[simp] theorem cancelFrom_state {index : ℕ} {spec : PieceSpec} {addrs : Finset Address} {offset : ℕ} :
    (cancelFrom hint s t index spec addrs offset).1.state = s.state := by
  unfold cancelFrom
  split
  · rfl
  · exact finishPiece_state

@[simp] theorem afterHave_state {index : ℕ} {spec : PieceSpec} :
    (afterHave hint s t index spec).1.state = s.state := by
  unfold afterHave
  split
  · exact cancelFrom_state
  · exact finishPiece_state

@[simp] theorem onBlock_state {index begin : ℕ} {block : Bytes} :
    (onBlock sha1 hint s t index begin block).1.state = s.state := by
  unfold onBlock
  dsimp only
  split
  · rfl
  · split
    · split
      · rfl
      · split
        · rfl
        · exact finishPiece_state
    · rfl

@[simp] theorem onRequest_state {index begin length : ℕ} :
    (onRequest s t index begin length).1.state = s.state := by
  unfold onRequest
  split
  · rfl
  · split
    · split <;> rfl
    · rfl

@[simp] theorem announced_state {interest : Bool} : (announced s t interest).1.state = s.state := by
  unfold announced
  split <;> rfl

theorem onMessage_state (msg : PeerMessages.Message) :
    (onMessage sha1 hint s t msg).1.state = s.state := by
  cases msg with
  | keepAlive => rfl
  | bitfield data => exact announced_state
  | havePiece index => exact announced_state
  | interested =>
    simp only [onMessage]
    split <;> rfl
  | notInterested => rfl
  | choke =>
    simp only [onMessage]
    split <;> rfl
  | unchoke =>
    simp only [onMessage]
    split
    · exact nextPiece_state
    · rfl
  | request index begin length => exact onRequest_state
  | piece index begin block =>
    simp only [onMessage]
    split
    · exact onBlock_state
    · rfl
  | cancel _ _ _ => rfl

theorem resume_state {s' : Session} {t' : Task} (h : resume kind hint s t = some (s', t')) :
    s'.state = s.state := by
  unfold resume at h
  split at h
  case h_5 =>
    split at h
    · cases h
    · split at h
      · cases h
        rfl
      · cases h
        rfl
  case h_9 =>
    have hsame := congrArg (fun next => next.1.state) (Option.some.inj h)
    exact hsame.symm.trans afterHave_state
  all_goals first | (cases h; rfl) | cases h

theorem cancelStep_state {addr : Address} {connected : Bool} {s' : Session} {t' : Task}
    (h : cancelStep addr connected hint s t = some (s', t')) : s'.state = s.state := by
  unfold cancelStep at h
  split at h
  · split at h
    · dsimp only at h
      split at h
      · have hsame := congrArg (fun next => next.1.state) (Option.some.inj h)
        refine hsame.symm.trans ?_
        split <;> rfl
      · have hsame := congrArg (fun next => next.1.state) (Option.some.inj h)
        refine hsame.symm.trans (cancelFrom_state.trans ?_)
        split <;> rfl
    · cases h
  · cases h

theorem taskStep_state {a : PieceEngine.Action} {s' : Session} {t' : Task}
    (h : taskStep sha1 kind a s t = some (s', t')) : s'.state = s.state := by
  cases a with
  | starts =>
    simp only [taskStep] at h
    split at h
    · split at h
      · cases h
        rfl
      · cases h
        rfl
    · cases h
  | receives msg hint =>
    simp only [taskStep] at h
    split at h
    · have hsame := congrArg (fun next => next.1.state) (Option.some.inj h)
      exact hsame.symm.trans (onMessage_state msg)
    · cases h
  | returns hint => exact resume_state h
  | raises =>
    simp only [taskStep] at h
    split at h
    · cases h
      rfl
    · cases h
      rfl
    · cases h
    · cases h
      rfl
  | fetches =>
    simp only [taskStep] at h
    split at h
    · obtain ⟨_, -, heq⟩ := Option.map_eq_some_iff.mp h
      cases heq
      rfl
    · cases h
  | stores k =>
    simp only [taskStep] at h
    split at h
    · obtain ⟨_, -, heq⟩ := Option.map_eq_some_iff.mp h
      cases heq
      rfl
    · cases h
  | cancels addr connected hint => exact cancelStep_state h
  | rechokes amChoking =>
    simp only [taskStep] at h
    split at h
    · cases h
    · cases h
      rfl

end

def Deciding (st : Starter) : Prop := ∃ todo, st.Scans todo

def decidedState (t : Tracker) : TorrentState := if t.isComplete then .seeding else .downloading

theorem decidedState_ne_stopped (t : Tracker) : decidedState t ≠ .stopped := by
  unfold decidedState
  split <;> nofun

inductive StartOutcome (s : Session) (st : Starter) (s' : Session) (st' : Starter) : Prop
  | leaves : st'.point = .ended → s'.state = s.state →
      (s' = s ∨ ∃ idx : ℕ, (idx : ℤ) < s.tracker.pieceCount ∧ s.tracker.specs[idx]? = none) →
      StartOutcome s st s' st'
  | goesOn : Deciding st' → (st.point = .starting ∧ s'.state = .checking) ∨
      (Deciding st ∧ s'.state = s.state) → StartOutcome s st s' st'
  | decides : st'.point = .emitStarted → s'.state = decidedState s'.tracker →
      StartOutcome s st s' st'

theorem afterCheck_decides (s : Session) (st : Starter) :
    (afterCheck s st).2.point = .emitStarted ∧
      (afterCheck s st).1.state = decidedState (afterCheck s st).1.tracker := by
  by_cases h : s.tracker.isComplete
  · rw [afterCheck, if_pos h]
    exact ⟨rfl, (if_pos h).symm⟩
  · rw [afterCheck, if_neg h]
    exact ⟨rfl, (if_neg h).symm⟩

theorem scanFrom_outcome (s : Session) (st : Starter) (todo : List ℕ) :
    ((scanFrom s st todo).2.point = .emitStarted ∧
        (scanFrom s st todo).1.state = decidedState (scanFrom s st todo).1.tracker) ∨
      (scanFrom s st todo).1 = s ∧ (Deciding (scanFrom s st todo).2 ∨
        (scanFrom s st todo).2.point = .ended ∧
          ∃ idx : ℕ, (idx : ℤ) < s.tracker.pieceCount ∧ s.tracker.specs[idx]? = none) := by
  induction todo with
  | nil => exact Or.inl (afterCheck_decides _ st)
  | cons idx todo ih =>
    unfold scanFrom
    split
    · exact ih
    · next hinside =>
      split
      · next hnone => exact Or.inr ⟨rfl, Or.inr ⟨rfl, idx, by omega, hnone⟩⟩
      · next spec hspec => exact Or.inr ⟨rfl, Or.inl ⟨todo, Or.inr ⟨idx, spec, [], rfl⟩⟩⟩

theorem checkResume_outcome (s : Session) (st : Starter) :
    ((checkResume s st).2.point = .emitStarted ∧
        (checkResume s st).1.state = decidedState (checkResume s st).1.tracker) ∨
      Deciding (checkResume s st).2 ∧ (checkResume s st).1.state = .checking := by
  unfold checkResume
  split
  · exact Or.inl (afterCheck_decides s st)
  · dsimp only
    split_ifs
    all_goals first
      | exact Or.inl (afterCheck_decides _ st)
      | exact Or.inr ⟨⟨_, Or.inl rfl⟩, rfl⟩

@[simp] theorem afterCheck_tracker (s : Session) (st : Starter) :
    (afterCheck s st).1.tracker = s.tracker := by
  unfold afterCheck
  split <;> rfl

@[simp] theorem scanFrom_tracker (s : Session) (st : Starter) (todo : List ℕ) :
    (scanFrom s st todo).1.tracker = s.tracker := by
  induction todo with
  | nil => exact afterCheck_tracker _ st
  | cons idx todo ih =>
    unfold scanFrom
    split
    · exact ih
    · split <;> rfl

@[simp] theorem checkResume_tracker (s : Session) (st : Starter) :
    (checkResume s st).1.tracker = s.tracker := by
  unfold checkResume
  dsimp only
  split_ifs
  all_goals first
    | exact afterCheck_tracker _ st
    | rfl

theorem startOutcome_of_turn {sha1 : Bytes → Bytes} {s s' : Session} {st st' : Starter}
    (h : StartTurn sha1 s st s' st') : StartOutcome s st s' st' := by
  have hscan : ∀ {s₁ : Session} {todo : List ℕ}, scanFrom s₁ st todo = (s', st') →
      st.Scans todo → s₁.state = s.state → s₁.tracker.pieceCount = s.tracker.pieceCount →
      s₁.tracker.specs = s.tracker.specs → StartOutcome s st s' st' := by
    intro s₁ todo heq hscans hstate hcount hspecs
    have hout := scanFrom_outcome s₁ st todo
    rw [heq, hcount, hspecs] at hout
    rcases hout with ⟨hpoint, hdecided⟩ | ⟨rfl, hon | ⟨hended, hmissing⟩⟩
    · exact .decides hpoint hdecided
    · exact .goesOn hon (Or.inr ⟨⟨todo, hscans⟩, hstate⟩)
    · exact .leaves hended hstate (Or.inr hmissing)
  cases h with
  | ends hs hst =>
    rw [hs, hst]
    exact .leaves rfl rfl (Or.inl rfl)
  | checks hpoint heq =>
    have hout := checkResume_outcome s st
    rw [heq] at hout
    rcases hout with ⟨hemit, hdecided⟩ | ⟨hon, hchecking⟩
    · exact .decides hemit hdecided
    · exact .goesOn hon (Or.inl ⟨hpoint, hchecking⟩)
  | scans todo hscans heq => exact hscan heq hscans rfl rfl rfl
  | @marks idx spec data todo hpoint _ heq =>
    exact hscan heq (Or.inr ⟨idx, spec, data, hpoint⟩) rfl rfl rfl
  | @fetches idx spec data todo byte hpoint _ hs hst =>
    rw [hs, hst]
    exact .goesOn ⟨todo, Or.inr ⟨idx, spec, _, rfl⟩⟩
      (Or.inr ⟨⟨todo, Or.inr ⟨idx, spec, data, hpoint⟩⟩, rfl⟩)

/-- A call that has not begun ends, or it begins with the resume data. -/
theorem starting_cases {sha1 : Bytes → Bytes} {b : StartAction} {s s' : Session} {st st' : Starter}
    (hpoint : st.point = .starting) (h : SessionTasks.startStep sha1 b s st = some (s', st')) :
    (s' = s ∧ st'.point = .ended ∧ (b = .starts → s.state = .downloading ∨ s.state = .seeding)) ∨
      b = .starts ∧ ¬ (s.state = .downloading ∨ s.state = .seeding) ∧
        checkResume s st = (s', st') := by
  cases b with
  | starts =>
    simp only [SessionTasks.startStep, hpoint] at h
    split at h
    · next hruns =>
      cases h
      exact Or.inl ⟨rfl, rfl, fun _ => hruns⟩
    · next hneither => exact Or.inr ⟨rfl, hneither, Option.some.inj h⟩
  | returns => simp [SessionTasks.startStep, hpoint] at h
  | fails => simp [SessionTasks.startStep, hpoint] at h
  | fetches => simp [SessionTasks.startStep, hpoint] at h
  | raises =>
    simp only [SessionTasks.startStep, hpoint] at h
    cases h
    exact Or.inl ⟨rfl, rfl, fun hb => by cases hb⟩

variable {sha1 : Bytes → Bytes} {kind : StorageKind} {a : Action} {s s' : Control} {p p' : Proc}

/-- A step of one of the calls, of a peer's task or of the choking manager. -/
inductive Turn (sha1 : Bytes → Bytes) (kind : StorageKind) (a : Action) (s : Control) (p : Proc)
    (s' : Control) (p' : Proc) : Prop
  | starter {b st st'} : a = .start b → p = .starter st → p' = .starter st' →
      startStep sha1 b s st = some (s', st') → Turn sha1 kind a s p s' p'
  | peer {b t t'} : a = .peer b → p = .peer t → p' = .peer t' →
      peerStep sha1 kind b s t = some (s', t') → Turn sha1 kind a s p s' p'
  | stopper {point point'} : p = .stopper point → p' = .stopper point' →
      stopStep a s point = some (s', point') → Turn sha1 kind a s p s' p'
  | joiner {incoming addr point} : p = .joiner incoming addr point →
      joinStep a s incoming addr point = some (s', p') → Turn sha1 kind a s p s' p'
  | choker {task} : p = .choker → p' = .choker →
      s' = { s with chokingRuns := s.chokingRuns.erase task } → Turn sha1 kind a s p s' p'

theorem turn_of_step (h : program sha1 kind a s p = some (s', p')) : Turn sha1 kind a s p s' p' := by
  unfold program at h
  split at h
  · obtain ⟨⟨s₁, st'⟩, hstep, heq⟩ := Option.map_eq_some_iff.mp h
    cases heq
    exact .starter rfl rfl rfl hstep
  · obtain ⟨⟨s₁, t'⟩, hstep, heq⟩ := Option.map_eq_some_iff.mp h
    cases heq
    exact .peer rfl rfl rfl hstep
  · obtain ⟨⟨s₁, point'⟩, hstep, heq⟩ := Option.map_eq_some_iff.mp h
    cases heq
    exact .stopper rfl rfl hstep
  · exact .joiner rfl h
  · split at h
    · cases h
      exact .choker rfl rfl rfl
    · cases h
  · cases h

structure StartStep (sha1 : Bytes → Bytes) (b : StartAction) (s : Control) (st : Starter)
    (s' : Control) (st' : Starter) : Prop where
  session : SessionTasks.startStep sha1 b s.session st = some (s'.session, st')
  peers : s'.peers = s.peers
  called : b = .starts → s'.lastCall = .start
  notCalled : b ≠ .starts → s'.lastCall = s.lastCall
  choking : (s'.chokingTask = s.chokingTask ∧ s'.chokingRuns = s.chokingRuns) ∨
    b = .returns ∧ st.point = .emitStarted ∧ s' = createChoking { s with session := s'.session }
  seeding : st'.point = .emitStarted →
    s'.isSeeding = (s.isSeeding || decide s'.session.tracker.isComplete)
  notSeeding : st'.point ≠ .emitStarted → s'.isSeeding = s.isSeeding

@[simp] theorem createChoking_session (s : Control) : (createChoking s).session = s.session := by
  unfold createChoking
  split
  · rfl
  · split <;> rfl

@[simp] theorem createChoking_isSeeding (s : Control) : (createChoking s).isSeeding = s.isSeeding := by
  unfold createChoking
  split
  · rfl
  · split <;> rfl

@[simp] theorem createChoking_lastCall (s : Control) : (createChoking s).lastCall = s.lastCall := by
  unfold createChoking
  split
  · rfl
  · split <;> rfl

@[simp] theorem createChoking_peers (s : Control) : (createChoking s).peers = s.peers := by
  unfold createChoking
  split
  · rfl
  · split <;> rfl

theorem decided_step (s : Control) (session : Session) (st' : Starter) :
    (decided s session st').session = session ∧ (decided s session st').peers = s.peers ∧
      (decided s session st').chokingTask = s.chokingTask ∧
      (decided s session st').chokingRuns = s.chokingRuns ∧
      (decided s session st').lastCall = s.lastCall ∧
      (st'.point = .emitStarted →
        (decided s session st').isSeeding = (s.isSeeding || decide session.tracker.isComplete)) ∧
      (st'.point ≠ .emitStarted → (decided s session st').isSeeding = s.isSeeding) := by
  unfold decided
  split
  · next hp => exact ⟨rfl, rfl, rfl, rfl, rfl, fun _ => rfl, fun hne => absurd hp hne⟩
  · next hne => exact ⟨rfl, rfl, rfl, rfl, rfl, fun hp => absurd hp hne, fun _ => rfl⟩

theorem startStep_cases {b : StartAction} {st st' : Starter}
    (h : startStep sha1 b s st = some (s', st')) : StartStep sha1 b s st s' st' := by
  unfold startStep at h
  split at h
  · cases h
  · next session st₁ hstep =>
    obtain ⟨hsession, hpeers, htask, hruns, hlast, hseeding, hnot⟩ :=
      decided_step s session st₁
    split at h
    · obtain ⟨rfl, rfl⟩ := Prod.mk.inj (Option.some.inj h)
      refine ⟨?_, hpeers, fun _ => rfl, fun hne => absurd rfl hne, Or.inl ⟨htask, hruns⟩, ?_, hnot⟩
      · exact hsession.symm ▸ hstep
      · exact hsession.symm ▸ hseeding
    · next hpoint =>
      obtain ⟨rfl, rfl⟩ := Prod.mk.inj (Option.some.inj h)
      have hended : st₁.point = .ended := by
        simp only [SessionTasks.startStep, hpoint] at hstep
        cases hstep
        rfl
      refine ⟨?_, createChoking_peers _, (fun hb => by cases hb), fun _ => createChoking_lastCall _,
        Or.inr ⟨rfl, hpoint, ?_⟩, fun hp => ?_, fun _ => createChoking_isSeeding _⟩
      · rw [createChoking_session]
        exact hstep
      · rw [createChoking_session]
      · rw [hended] at hp
        cases hp
    · next hstarts _ =>
      obtain ⟨rfl, rfl⟩ := Prod.mk.inj (Option.some.inj h)
      refine ⟨?_, hpeers, fun hb => ?_, fun _ => hlast, Or.inl ⟨htask, hruns⟩, ?_, hnot⟩
      · exact hsession.symm ▸ hstep
      · exact (hstarts hb).elim
      · exact hsession.symm ▸ hseeding

theorem peerStep_cases {b : PieceEngine.Action} {t t' : Task}
    (h : peerStep sha1 kind b s t = some (s', t')) :
    ∃ session peers, taskStep sha1 kind b s.session t = some (session, t') ∧
      s' = { s with session := session, peers := peers } := by
  obtain ⟨⟨session, t₁⟩, htask, heq⟩ := Option.map_eq_some_iff.mp h
  obtain ⟨rfl, rfl⟩ := Prod.mk.inj heq
  exact ⟨session, _, htask, rfl⟩

/-- A call that connects a peer leaves the session alone, and becomes the peer's task. -/
theorem joinStep_cases {incoming : Bool} {addr : Address} {point : JoinPoint}
    (h : joinStep a s incoming addr point = some (s', p')) :
    (∃ peers, s' = { s with peers := peers }) ∧
      ((∃ point', p' = .joiner incoming addr point') ∨
        a = .proceeds ∧ point = .emitting ∧
          p' = .peer (newTask addr true (some ⟨true, false, 0, 0⟩))) := by
  unfold joinStep at h
  split at h
  · split at h
    · cases h
      exact ⟨⟨_, rfl⟩, Or.inl ⟨_, rfl⟩⟩
    · cases h
      exact ⟨⟨_, rfl⟩, Or.inl ⟨_, rfl⟩⟩
  · cases h
    exact ⟨⟨_, rfl⟩, Or.inl ⟨_, rfl⟩⟩
  · cases h
    exact ⟨⟨_, rfl⟩, Or.inr ⟨rfl, rfl, rfl⟩⟩
  · cases h
    exact ⟨⟨_, rfl⟩, Or.inl ⟨_, rfl⟩⟩
  · cases h
    exact ⟨⟨_, rfl⟩, Or.inl ⟨_, rfl⟩⟩
  · cases h
    exact ⟨⟨_, rfl⟩, Or.inl ⟨_, rfl⟩⟩
  · cases h

end SessionControl
