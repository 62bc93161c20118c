import Aiobt.PeerRuns

/-! # Completion and its events

What a step does to `done_event` and to the events that are emitted, and under which conditions
every run signals a completed download, once. -/
namespace CompletionEvents

open ByteStrings PieceTracker PeerMessages PieceEngine SessionTasks PieceSearch EngineTurns
open InterleavedProcesses PeerRuns FlatStore

variable {sha1 : Bytes → Bytes} {kind : StorageKind} {a : Action} {hint : ℕ} {s s' s₀ : Session}
  {t t' : Task} {c : Config Session Task} {procs : List Task} {n : ℕ}

structure Silent (s s' : Session) : Prop where
  got : s'.tracker.got = s.tracker.got
  pieceCount : s'.tracker.pieceCount = s.tracker.pieceCount
  doneEvent : s'.doneEvent = s.doneEvent
  events : s'.events = s.events

theorem SameState.silent (h : SameState s s') : Silent s s' := by
  refine ⟨?_, ?_, h.doneEvent, h.events⟩
  · rw [h.tracker]
  · rw [h.tracker]

theorem Silent.isComplete (h : Silent s s') : s'.tracker.isComplete ↔ s.tracker.isComplete := by
  rw [Tracker.isComplete, Tracker.isComplete, h.got, h.pieceCount]

theorem cleanup_silent (s : Session) (t : Task) : Silent s (cleanup s t).1 := by
  have hmarks := (cleanup_undisturbed s t).marks
  exact ⟨hmarks.got, hmarks.pieceCount, rfl, rfl⟩

theorem nextPiece_silent (h : nextPiece hint s t = (s', t')) : Silent s s' := by
  have hmarks := (nextPiece_undisturbed h).marks
  obtain ⟨tr, eg, started, -, hcases⟩ := nextPiece_cases h
  refine ⟨hmarks.got, hmarks.pieceCount, ?_, ?_⟩
  · rcases hcases with ⟨-, rfl, -⟩ | ⟨idx, spec, -, rfl, -⟩ | ⟨-, rfl, -⟩ <;> rfl
  · rcases hcases with ⟨-, rfl, -⟩ | ⟨idx, spec, -, rfl, -⟩ | ⟨-, rfl, -⟩ <;> rfl

def complete (s : Session) : Session :=
  { s with doneEvent := true, events := s.events ++ [.completed] }

theorem finishPiece_signals {s₁ : Session} (hs : Silent s s₁) (h : finishPiece hint s₁ t = (s', t')) :
    ¬ s.tracker.isComplete ∧ Silent s s' ∨ s.tracker.isComplete ∧ Silent (complete s) s' := by
  rw [← hs.isComplete]
  rcases finishPiece_cases h with ⟨hcomplete, rfl, -⟩ | ⟨hcomplete, -, rfl, -⟩ | ⟨hcomplete, -, hnext⟩
  · refine Or.inr ⟨hcomplete, hs.got, hs.pieceCount, rfl, ?_⟩
    rw [complete, hs.events]
  · exact Or.inl ⟨hcomplete, hs⟩
  · have hsilent := nextPiece_silent hnext
    exact Or.inl ⟨hcomplete, hsilent.got.trans hs.got, hsilent.pieceCount.trans hs.pieceCount,
      hsilent.doneEvent.trans hs.doneEvent, hsilent.events.trans hs.events⟩

/-- What a step signals: nothing, a piece that is written, or completion at the end of a piece. -/
theorem turn_signals (h : Turn sha1 kind a s t s' t') :
    Silent s s' ∨
      (∃ index spec assembled hint, a = .returns hint ∧ t.point = .write index spec assembled ∧
        t'.point = .emitVerified index spec ∧ s' = { s with
          storage := flatWrite s.storage spec.offset.toNat assembled
          tracker := s.tracker.markHave index
          events := s.events ++ [.pieceVerified index] }) ∨
      movesOn sha1 s t a = true ∧ s.tracker.isComplete ∧ Silent (complete s) s' := by
  have hrefl : Silent s s := ⟨rfl, rfl, rfl, rfl⟩
  cases h with
  | keeps hs => exact Or.inl (SameState.silent hs)
  | begins => exact Or.inl hrefl
  | cancelled => exact Or.inl hrefl
  | bitfield _ _ hs =>
    have := SameState.silent hs
    exact Or.inl ⟨this.got, this.pieceCount, this.doneEvent, this.events⟩
  | havePiece _ _ hs =>
    have := SameState.silent hs
    exact Or.inl ⟨this.got, this.pieceCount, this.doneEvent, this.events⟩
  | choked => exact Or.inl ⟨rfl, rfl, rfl, rfl⟩
  | unchoked => exact Or.inl hrefl
  | starts _ _ _ _ _ _ _ hnext => exact Or.inl (nextPiece_silent hnext)
  | verifies => exact Or.inl hrefl
  | @fails index begin block _ spec assembled t₁ _ _ ha hp hcur hspec hfull hassembled hverify _ _ hfinish =>
    have hover : movesOn sha1 s t a = true := by
      rw [movesOn, ha, failsHash_receives hp hcur hspec hfull hassembled hverify, Bool.or_true]
    have hsilent : Silent s { s with tracker := s.tracker.markFailed index } := ⟨rfl, rfl, rfl, rfl⟩
    rcases finishPiece_signals hsilent hfinish with ⟨-, hs⟩ | ⟨hcomplete, hs⟩
    · exact Or.inl hs
    · exact Or.inr (Or.inr ⟨hover, hcomplete, hs⟩)
  | stores => exact Or.inl ⟨rfl, rfl, rfl, rfl⟩
  | writes ha hp => exact Or.inr (Or.inl ⟨_, _, _, _, ha, hp, rfl, rfl⟩)
  | withdraws => exact Or.inl ⟨rfl, rfl, rfl, rfl⟩
  | finishes _ hends htr _ hdone hevents _ hfinish =>
    have hover : movesOn sha1 s t a = true := by rw [movesOn, hends, Bool.true_or]
    have hsilent : Silent s _ := ⟨by rw [htr], by rw [htr], hdone, hevents⟩
    rcases finishPiece_signals hsilent hfinish with ⟨-, hs⟩ | ⟨hcomplete, hs⟩
    · exact Or.inl hs
    · exact Or.inr (Or.inr ⟨hover, hcomplete, hs⟩)
  | leaves => exact Or.inl (cleanup_silent s _)

/-- A write returns for a piece that is not had yet, and no task moves on from a piece once
`done_event` is set on a complete download. -/
def Once (sha1 : Bytes → Bytes) (s : Session) (_ : List Task) (_ : ℕ) (t : Task) (a : Action) : Prop :=
  (∀ i ∈ writtenPiece t a, i ∉ s.tracker.got) ∧
    (movesOn sha1 s t a = true → s.tracker.isComplete → s.doneEvent = false)

instance (sha1 : Bytes → Bytes) (s : Session) (procs : List Task) (i : ℕ) (t : Task) (a : Action) :
    Decidable (Once sha1 s procs i t a) := inferInstanceAs (Decidable (_ ∧ _))

structure Recorded (s : Session) : Prop where
  verified : ∀ i, Event.pieceVerified i ∈ s.events → i ∈ s.tracker.got
  completed : Event.completed ∈ s.events → s.doneEvent = true
  nodup : s.events.Nodup

theorem Recorded.silent (h : Recorded s) (hs : Silent s s') : Recorded s' where
  verified i hi := by
    rw [hs.events] at hi
    rw [hs.got]
    exact h.verified i hi
  completed hc := by
    rw [hs.events] at hc
    rw [hs.doneEvent]
    exact h.completed hc
  nodup := by
    rw [hs.events]
    exact h.nodup

theorem recorded_complete (h : Recorded s) (hdone : s.doneEvent = false) : Recorded (complete s) where
  verified i hi := by
    rcases List.mem_append.mp hi with hi | hi
    · exact h.verified i hi
    · simp at hi
  completed _ := rfl
  nodup := by
    rw [complete, List.nodup_append]
    refine ⟨h.nodup, List.nodup_singleton _, fun x hx y hy heq => ?_⟩
    rw [heq, List.mem_singleton.mp hy] at hx
    rw [h.completed hx] at hdone
    cases hdone

theorem Recorded.turn (h : Recorded s) (hturn : Turn sha1 kind a s t s' t')
    (hok : Once sha1 s procs n t a) : Recorded s' := by
  rcases turn_signals hturn with hs | ⟨index, spec, assembled, hint, rfl, hp, -, rfl⟩ |
    ⟨hover, hcomplete, hs⟩
  · exact h.silent hs
  · have hnew : index ∉ s.tracker.got := hok.1 index (by simp [writtenPiece, hp])
    constructor
    · intro i hi
      rcases List.mem_append.mp hi with hi | hi
      · exact Finset.mem_insert_of_mem (h.verified i hi)
      · obtain rfl : i = index := by simpa using hi
        exact Finset.mem_insert_self i _
    · intro hc
      rcases List.mem_append.mp hc with hc | hc
      · exact h.completed hc
      · simp at hc
    · refine List.nodup_append.mpr ⟨h.nodup, List.nodup_singleton _, fun x hx y hy heq => ?_⟩
      rw [heq, List.mem_singleton.mp hy] at hx
      exact hnew (h.verified index hx)
  · exact (recorded_complete h (hok.2 hover hcomplete)).silent hs

/-- In every run in which no piece is written that is had, and no task moves on once the completion
is signalled, each piece is reported once and so is completion. -/
theorem events_once (hidle : Idle s₀)
    (hreach : Reach (taskStep sha1 kind) (Moves (Once sha1)) ⟨s₀, []⟩ c) :
    (∀ i, c.shared.events.count (.pieceVerified i) ≤ 1) ∧ c.shared.events.count .completed ≤ 1 := by
  have hrecorded : Recorded c.shared := by
    refine peers_invariant (I := fun s _ => Recorded s) hreach ?_ (fun _ _ _ _ _ h => h) ?_
    · refine ⟨fun i hi => ?_, fun hc => ?_, ?_⟩
      · rw [hidle.events] at hi
        cases hi
      · rw [hidle.events] at hc
        cases hc
      · rw [hidle.events]
        exact List.nodup_nil
    · intro _ _ _ _ _ _ _ h _ hok _ hturn
      exact h.turn hturn hok
  have hcount := List.nodup_iff_count_le_one.mp hrecorded.nodup
  exact ⟨fun i => hcount _, hcount _⟩

/-- Two peers deliver the last piece in endgame. -/
theorem verified_twice :
    ∃ s c, newTorrent 20 20 (List.replicate 20 7) = some s ∧
      run (taskStep id .files) ⟨s, []⟩ (joins 0 [128] ++ unchokes 0 ++ joins 1 [128] ++ unchokes 1 ++
        [.act 0 (.receives (.piece 0 0 (List.replicate 20 7)) 0),
          .act 1 (.receives (.piece 0 0 (List.replicate 20 7)) 0), .act 0 (.returns 0),
          .act 1 (.returns 0)]) = some c ∧
      c.shared.events = [.pieceVerified 0, .pieceVerified 0] :=
  ⟨_, _, rfl, rfl, by decide +kernel⟩

theorem events_once_delivery :
    ∃ s c, newTorrent 20 20 (List.replicate 20 7) = some s ∧
      run (taskStep id .files) ⟨s, []⟩ delivery = some c ∧
      c.shared.events = [.pieceVerified 0, .completed] ∧ c.shared.events.count .completed ≤ 1 := by
  obtain ⟨s, hs⟩ : ∃ s, newTorrent 20 20 (List.replicate 20 7) = some s := ⟨_, rfl⟩
  obtain ⟨c, hrun, hevents, hok⟩ : ∃ c, run (taskStep id .files) ⟨s, []⟩ delivery = some c ∧
      c.shared.events = [.pieceVerified 0, .completed] ∧
        Allowed (taskStep id .files) (Moves (Once id)) ⟨s, []⟩ delivery := by
    obtain rfl := Option.some.inj hs
    exact ⟨_, rfl, by decide +kernel, by decide +kernel⟩
  exact ⟨s, c, hs, hrun, hevents, (events_once (idle_of_newTorrent hs) (reach_run hok hrun)).2⟩

def finishing (t : Task) : Bool :=
  match stage t.point with
  | .writing _ _ _ => true
  | .written _ _ => true
  | _ => false

/-- A call that raises while a piece is being finished, all pieces are had and `done_event` is not
set: another task is finishing a piece. -/
def Signalled (s : Session) (procs : List Task) (i : ℕ) (t : Task) : Action → Prop
  | .raises => finishing t = true → s.tracker.isComplete → s.doneEvent = false →
      ∃ u ∈ procs.eraseIdx i, finishing u = true
  | _ => True

instance (s : Session) (procs : List Task) (i : ℕ) (t : Task) (a : Action) :
    Decidable (Signalled s procs i t a) := by
  cases a <;> unfold Signalled <;> infer_instance

/-- A task that is finishing a piece goes on with it, fails, or signals the completion. -/
theorem turn_finishing (h : Turn sha1 kind a s t s' t') (hfin : finishing t = true) :
    finishing t' = true ∨ a = .raises ∨ (s'.tracker.isComplete → s'.doneEvent = true) := by
  have hnot : ∀ {p : Await}, t.point = p → stage p = .running ∨ stage p = .fresh → False := by
    intro p hp hstage
    rw [finishing, hp] at hfin
    rcases hstage with hs | hs <;> simp [hs] at hfin
  cases h with
  | keeps _ _ hstage =>
    refine Or.inl ?_
    rw [finishing, hstage]
    exact hfin
  | begins _ hp => exact (hnot hp (Or.inr rfl)).elim
  | cancelled _ hp => exact (hnot hp (Or.inr rfl)).elim
  | bitfield _ hp => exact (hnot hp (Or.inl rfl)).elim
  | havePiece _ hp => exact (hnot hp (Or.inl rfl)).elim
  | choked _ hp => exact (hnot hp (Or.inl rfl)).elim
  | unchoked _ hp => exact (hnot hp (Or.inl rfl)).elim
  | starts _ hp => exact (hnot hp (Or.inl rfl)).elim
  | verifies _ hp => exact (hnot hp (Or.inl rfl)).elim
  | fails _ hp => exact (hnot hp (Or.inl rfl)).elim
  | stores => exact Or.inl hfin
  | writes => exact Or.inl rfl
  | withdraws _ _ _ hstage =>
    refine Or.inl ?_
    rw [finishing, hstage]
  | finishes _ _ htr _ hdone hevents _ hfinish =>
    have hsilent : Silent s _ := ⟨by rw [htr], by rw [htr], hdone, hevents⟩
    refine Or.inr (Or.inr fun hcomplete => ?_)
    rcases finishPiece_signals hsilent hfinish with ⟨hno, hs⟩ | ⟨-, hs⟩
    · exact absurd (hs.isComplete.mp hcomplete) hno
    · exact hs.doneEvent
  | leaves hwhy =>
    cases hwhy with
    | raises ha => exact Or.inr (Or.inl ha)
    | noBitfield _ hp => exact (hnot hp (Or.inr rfl)).elim
    | negative _ hp => exact (hnot hp (Or.inl rfl)).elim
    | noSpec _ hp => exact (hnot hp (Or.inl rfl)).elim
    | shortRead _ _ hp => exact (hnot hp (Or.inl rfl)).elim

/-- A complete download is signalled, or a task is about to do so. -/
def Pending (s : Session) (procs : List Task) : Prop :=
  s.tracker.isComplete → s.doneEvent = true ∨ ∃ u ∈ procs, finishing u = true

theorem Pending.turn (h : Pending s procs) (hn : procs[n]? = some t)
    (hturn : Turn sha1 kind a s t s' t') (hok : Signalled s procs n t a) :
    Pending s' (procs.set n t') := by
  intro hcomplete
  rcases turn_signals hturn with hs | ⟨index, spec, assembled, hint, -, -, hp, -⟩ | ⟨-, -, hs⟩
  · rw [hs.isComplete] at hcomplete
    rw [hs.doneEvent]
    by_cases hdone : s.doneEvent = true
    · exact Or.inl hdone
    · rcases h hcomplete with hd | hu
      · exact absurd hd hdone
      · by_cases hfin : finishing t = true
        · rcases turn_finishing hturn hfin with hfin' | rfl | hsignal
          · exact Or.inr ⟨t', mem_set_self hn, hfin'⟩
          · obtain ⟨u, hu, hfinu⟩ := hok hfin hcomplete (by simpa using hdone)
            obtain ⟨j, hj, hat⟩ := List.mem_eraseIdx_iff_getElem?.mp hu
            exact Or.inr ⟨u, mem_set_of_ne hat hj, hfinu⟩
          · rw [← hs.doneEvent]
            exact Or.inl (hsignal (hs.isComplete.mpr hcomplete))
        · exact Or.inr (exists_set hn hu fun hyes => absurd hyes hfin)
  · refine Or.inr ⟨t', mem_set_self hn, ?_⟩
    rw [finishing, hp]
    rfl
  · exact Or.inl hs.doneEvent

/-- In every run in which a task that is finishing a piece of a complete download fails only while
another is finishing one, a download that is complete when no message is being handled has been
signalled. -/
theorem completion_signalled (hmissing : ¬ s₀.tracker.isComplete)
    (hreach : Reach (taskStep sha1 kind) (Moves Signalled) ⟨s₀, []⟩ c)
    (hquiet : ∀ t ∈ c.procs, Resting t)
    (hcomplete : c.shared.tracker.isComplete) : c.shared.doneEvent = true := by
  have hpending : Pending c.shared c.procs := by
    refine peers_invariant (I := Pending) hreach (fun hc => absurd hc hmissing) ?_ ?_
    · intro s procs addr given rates h hc
      rcases h hc with hdone | ⟨u, hu, hfin⟩
      · exact Or.inl hdone
      · exact Or.inr ⟨u, List.mem_append_left _ hu, hfin⟩
    · intro _ _ _ _ _ _ _ h hn hok _ hturn
      exact h.turn hn hturn hok
  rcases hpending hcomplete with hdone | ⟨u, hu, hfin⟩
  · exact hdone
  · rw [finishing] at hfin
    rcases hquiet u hu with hp | hp | hp <;> simp [hp, stage] at hfin

/-- The peer is lost before the Have is sent: the download is complete, and nobody is told. -/
theorem completion_unsignalled :
    ∃ s c, newTorrent 20 20 (List.replicate 20 7) = some s ∧
      run (taskStep id .files) ⟨s, []⟩ (joins 0 [128] ++ unchokes 0 ++
        sends 0 0 (List.replicate 20 7) ++ [.act 0 .raises, .act 0 (.returns 0)]) = some c ∧
      (∀ t ∈ c.procs, t.point = .ended) ∧ c.shared.tracker.isComplete ∧ c.shared.doneEvent = false :=
  ⟨_, _, rfl, rfl, by decide +kernel, by decide +kernel, by decide +kernel⟩

theorem completion_signalled_delivery :
    ∃ s c, newTorrent 20 20 (List.replicate 20 7) = some s ∧
      run (taskStep id .files) ⟨s, []⟩ delivery = some c ∧ c.shared.tracker.isComplete ∧
      c.shared.doneEvent = true := by
  obtain ⟨s, hs⟩ : ∃ s, newTorrent 20 20 (List.replicate 20 7) = some s := ⟨_, rfl⟩
  obtain ⟨c, hmissing, hrun, hquiet, hcomplete, hok⟩ : ∃ c, ¬ s.tracker.isComplete ∧
      run (taskStep id .files) ⟨s, []⟩ delivery = some c ∧ (∀ t ∈ c.procs, Resting t) ∧
        c.shared.tracker.isComplete ∧
        Allowed (taskStep id .files) (Moves Signalled) ⟨s, []⟩ delivery := by
    obtain rfl := Option.some.inj hs
    exact ⟨_, by decide +kernel, rfl, by decide +kernel, by decide +kernel, by decide +kernel⟩
  exact ⟨s, c, hs, hrun, hcomplete,
    completion_signalled hmissing (reach_run hok hrun) hquiet hcomplete⟩

end CompletionEvents
