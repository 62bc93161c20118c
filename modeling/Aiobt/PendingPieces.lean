import Aiobt.PeerRuns

/-! # Pending pieces have an owner

A piece that is marked as pending is the current piece of a live task, as long as `_start_piece`
never has to search past a piece that the peer lacks. -/
namespace PendingPieces

open ByteStrings PieceTracker PeerMessages PieceEngine SessionTasks PieceSearch EngineTurns
open InterleavedProcesses PeerRuns

variable {sha1 : Bytes → Bytes} {kind : StorageKind} {a : Action} {hint : ℕ} {s s' s₀ : Session}
  {t t' : Task} {c c' : Config Session Task} {procs : List Task} {n i : ℕ}

def startsWith (sha1 : Bytes → Bytes) (s : Session) (t : Task) (a : Action) : Option Tracker :=
  match a with
  | .receives .unchoke _ =>
    if t.point = .receive ∧ ¬ s.tracker.isComplete ∧ t.currentPiece = none then some s.tracker else none
  | .receives (.piece index _ _) _ =>
    if failsHash sha1 t a = true ∧ ¬ s.tracker.isComplete ∧ t.peerChoking = false then
      some (s.tracker.markFailed index)
    else none
  | _ =>
    if ends a s t = true ∧ ¬ s.tracker.isComplete ∧ t.peerChoking = false then some s.tracker else none

def Finds (sha1 : Bytes → Bytes) (s : Session) (_ : List Task) (_ : ℕ) (t : Task) (a : Action) : Prop :=
  ∀ tr ∈ startsWith sha1 s t a, ∀ i ∈ tr.selectPiece, i ∈ t.peerPieces

instance (sha1 : Bytes → Bytes) (s : Session) (procs : List Task) (i : ℕ) (t : Task) (a : Action) :
    Decidable (Finds sha1 s procs i t a) := inferInstanceAs (Decidable (∀ tr ∈ startsWith sha1 s t a, _))

theorem startsWith_ends (h : ends a s t = true) (hcomplete : ¬ s.tracker.isComplete)
    (hchoking : t.peerChoking = false) : startsWith sha1 s t a = some s.tracker := by
  cases a with
  | returns hint => exact if_pos ⟨h, hcomplete, hchoking⟩
  | cancels addr connected hint => exact if_pos ⟨h, hcomplete, hchoking⟩
  | _ => cases h

/-- A piece is marked and taken, or no mark changes; endgame is not entered while a piece can be
selected. -/
inductive Takes (s s' : Session) (t' : Task) : Prop
  | piece (i : ℕ) : s'.tracker.pending = insert i s.tracker.pending → Owns i t' →
      s'.endgame.active = s.endgame.active → Takes s s' t'
  | nothing : s'.tracker.pending = s.tracker.pending →
      s'.endgame.active = s.endgame.active ∨ s.tracker.selectPiece = none → Takes s s' t'

/-- A first selection that the peer has is taken; when there is none, no mark changes. -/
theorem nextPiece_takes (hfirst : ∀ i ∈ s.tracker.selectPiece, i ∈ t.peerPieces)
    (hspecs : s.tracker.specs.length = s.tracker.pieceCount.toNat) (hnone : t.currentPiece = none)
    (h : nextPiece hint s t = (s', t')) : Takes s s' t' := by
  obtain ⟨tr, eg, started, hstart, hcases⟩ := nextPiece_cases h
  unfold startPiece at hstart
  rw [search_first hfirst] at hstart
  cases hsel : s.tracker.selectPiece with
  | some idx =>
    obtain ⟨hlt, -, -⟩ := Tracker.selectPiece_spec hsel
    have hspec : (s.tracker.markPending idx).specs[idx]? = some s.tracker.specs[idx] :=
      List.getElem?_eq_getElem (hspecs ▸ hlt)
    rw [hsel] at hstart
    simp only [hspec] at hstart
    obtain ⟨rfl, hrest⟩ := Prod.mk.inj hstart
    obtain ⟨rfl, rfl⟩ := Prod.mk.inj hrest
    rcases hcases with ⟨hno, -, -⟩ | ⟨idx', spec, heq, rfl, rfl⟩ | ⟨hno, -, -⟩
    · cases hno
    · obtain ⟨rfl, rfl⟩ := Started.piece.inj heq
      obtain ⟨ht, hpoint⟩ := samePieces_requestFrom
        (t.takePiece idx s.tracker.specs[idx]) s.tracker.specs[idx] 0
      refine .piece idx rfl ⟨.of_running hpoint, ht.currentPiece⟩ ?_
      simp only
      split <;> rfl
    · cases hno
  | none =>
    rw [hsel] at hstart
    simp only at hstart
    have htr : tr = s.tracker := by
      split at hstart
      · exact (Prod.mk.inj hstart).1.symm
      · exact (Prod.mk.inj hstart).1.symm
    refine .nothing ?_ (Or.inr hsel)
    rcases hcases with ⟨-, rfl, -⟩ | ⟨idx', spec, -, rfl, -⟩ | ⟨-, rfl, -⟩
    · rw [htr]
    · rw [htr]
    · simp only [cleanup, hnone, htr]
      rfl

theorem finishPiece_takes
    (hfirst : ¬ s.tracker.isComplete → t.peerChoking = false →
      ∀ i ∈ s.tracker.selectPiece, i ∈ t.peerPieces)
    (hspecs : s.tracker.specs.length = s.tracker.pieceCount.toNat)
    (h : finishPiece hint s t = (s', t')) : Takes s s' t' := by
  rcases finishPiece_cases h with ⟨-, rfl, -⟩ | ⟨-, -, rfl, -⟩ | ⟨hcomplete, hchoking, hnext⟩
  · exact .nothing rfl (Or.inl rfl)
  · exact .nothing rfl (Or.inl rfl)
  · have hdrop : ∀ i ∈ s.tracker.selectPiece, i ∈ t.dropPiece.peerPieces := hfirst hcomplete hchoking
    exact nextPiece_takes hdrop hspecs rfl hnext

/-- A step keeps the pieces of the task whose marks it keeps, or it drops its piece, with the mark,
and may take another. -/
inductive Marking (s : Session) (t : Task) (s' : Session) (t' : Task) : Prop
  | keeps : (∀ i ∈ s'.tracker.pending, i ∈ s.tracker.pending ∧ (Owns i t → Owns i t')) →
      (s'.endgame.active = true → s.endgame.active = true) → Marking s t s' t'
  | takes (s₁ : Session) : (∀ i ∈ s₁.tracker.pending, i ∈ s.tracker.pending ∧ ¬ Owns i t) →
      (s₁.endgame.active = true → s.endgame.active = true) → Takes s₁ s' t' → Undisturbed s₁ s' →
      Marking s t s' t'

theorem cleanup_marking {t₁ : Task} (ht : t₁.currentPiece = t.currentPiece) :
    Marking s t (cleanup s t₁).1 (cleanup s t₁).2 := by
  refine .keeps (fun i hi => ?_) fun hon => ?_
  · cases hcur : t₁.currentPiece with
    | none =>
      simp only [cleanup, hcur] at hi
      exact ⟨hi, fun howns => absurd howns (not_owns_of_none (ht.symm.trans hcur))⟩
    | some p =>
      simp only [cleanup, hcur] at hi
      obtain ⟨hne, hi⟩ := Finset.mem_erase.mp hi
      exact ⟨hi, fun howns => absurd howns (not_owns_of_current (ht.symm.trans hcur) hne)⟩
  · simp only [cleanup] at hon
    split at hon
    · exact hon
    · exact hon

theorem turn_marking (h : Turn sha1 kind a s t s' t') (htask : TaskOk sha1 s.tracker.specs t)
    (hok : Finds sha1 s procs n t a) (hspecs : s.tracker.specs.length = s.tracker.pieceCount.toNat)
    (hwritten : ∀ index spec, stage t.point = .written index spec → index ∉ s.tracker.pending) :
    Marking s t s' t' := by
  have howned : ∀ {i : ℕ}, Live t' → t'.currentPiece = t.currentPiece → Owns i t → Owns i t' :=
    fun hlive hcur howns => ⟨hlive, hcur.trans howns.2⟩
  cases h with
  | keeps hs ht hstage =>
    refine .keeps (fun i hi => ⟨by rwa [hs.tracker] at hi, fun howns => ?_⟩) (by rw [hs.endgame]; exact id)
    refine howned ?_ ht.currentPiece howns
    rw [Live, hstage]
    exact howns.1
  | begins => exact .keeps (fun i hi => ⟨hi, howned (.of_running rfl) rfl⟩) id
  | cancelled _ hp =>
    obtain ⟨hnone, -⟩ := htask.fresh (by rw [hp]; rfl)
    exact .keeps (fun i hi => ⟨hi, fun howns => absurd howns (not_owns_of_none hnone)⟩) id
  | bitfield _ _ hs ht hstage =>
    refine .keeps (fun i hi => ?_) (by rw [hs.endgame]; exact id)
    rw [hs.tracker] at hi
    exact ⟨hi, howned (.of_running hstage) ht.currentPiece⟩
  | havePiece _ _ hs ht hstage =>
    refine .keeps (fun i hi => ?_) (by rw [hs.endgame]; exact id)
    rw [hs.tracker] at hi
    exact ⟨hi, howned (.of_running hstage) ht.currentPiece⟩
  | choked _ _ hcur _ _ _ =>
    refine .keeps (fun i hi => ?_) id
    obtain ⟨hne, hi⟩ := Finset.mem_erase.mp hi
    exact ⟨hi, fun howns => absurd howns (not_owns_of_current hcur hne)⟩
  | unchoked _ _ _ ht hstage =>
    exact .keeps (fun i hi => ⟨hi, howned (.of_running hstage) ht.currentPiece⟩) id
  | starts ha hp hcomplete hnone ht _ _ hnext =>
    have hfirst : ∀ i ∈ s.tracker.selectPiece, i ∈ t.peerPieces :=
      hok s.tracker (by rw [ha, startsWith, if_pos ⟨hp, hcomplete, hnone⟩]; rfl)
    rw [← ht.peerPieces] at hfirst
    exact .takes s (fun i hi => ⟨hi, not_owns_of_none hnone⟩) id
      (nextPiece_takes hfirst hspecs (ht.currentPiece.trans hnone) hnext) (nextPiece_undisturbed hnext)
  | verifies _ _ hcur _ _ ht hstage =>
    refine .keeps (fun i hi => ⟨hi, howned ?_ ht.currentPiece⟩) id
    rw [Live, hstage]
    intro hgone
    cases hgone
  | @fails index _ _ _ _ _ t₁ _ _ ha hp hcur hspec hfull hassembled hverify ht _ hfinish =>
    have hfirst : ¬ (s.tracker.markFailed index).isComplete → t₁.peerChoking = false →
        ∀ i ∈ (s.tracker.markFailed index).selectPiece, i ∈ t₁.peerPieces := by
      intro hcomplete hchoking
      rw [ht.peerPieces]
      have hchoking' : t.peerChoking = false := by
        rcases ht.peerChoking with hsame | hchoked
        · exact hsame.symm.trans hchoking
        · rw [hchoked.1] at hchoking
          cases hchoking
      refine hok _ ?_
      rw [ha, startsWith, if_pos ⟨failsHash_receives hp hcur hspec hfull hassembled hverify, hcomplete,
        hchoking'⟩]
      rfl
    refine .takes { s with tracker := s.tracker.markFailed index } (fun i hi => ?_) id
      (finishPiece_takes hfirst hspecs hfinish) (finishPiece_undisturbed hfinish)
    obtain ⟨hne, hi⟩ := Finset.mem_erase.mp hi
    exact ⟨hi, not_owns_of_current hcur hne⟩
  | stores => exact .keeps (fun i hi => ⟨hi, id⟩) id
  | writes _ hp =>
    refine .keeps (fun i hi => ⟨Finset.mem_of_mem_erase hi, howned ?_ rfl⟩) id
    intro hgone
    cases hgone
  | withdraws _ _ ht hstage =>
    refine .keeps (fun i hi => ⟨hi, howned ?_ ht.currentPiece⟩) fun hon => ?_
    · rw [Live, hstage]
      intro hgone
      cases hgone
    · exact (Bool.and_eq_true_iff.mp hon).1
  | @finishes index spec _ s₁ _ _ hstage hends htr _ _ _ hendgame hfinish =>
    have hfirst : ¬ s₁.tracker.isComplete → t.peerChoking = false →
        ∀ i ∈ s₁.tracker.selectPiece, i ∈ t.peerPieces := by
      rw [htr]
      intro hcomplete hchoking
      exact hok s.tracker (by rw [startsWith_ends hends hcomplete hchoking]; rfl)
    refine .takes s₁ (fun i hi => ?_) (fun hon => ?_)
      (finishPiece_takes hfirst (by rw [htr]; exact hspecs) hfinish) (finishPiece_undisturbed hfinish)
    · rw [htr] at hi
      refine ⟨hi, not_owns_of_current (htask.written index spec hstage).1 ?_⟩
      rintro rfl
      exact hwritten i spec hstage hi
    · rcases hendgame with hsame | hdone
      · rw [← hsame]
        exact hon
      · rw [hdone] at hon
        exact (Bool.and_eq_true_iff.mp hon).1
  | leaves _ _ ht => exact cleanup_marking ht.currentPiece

/-- A mark that is left belongs to the task that moved, or to whom it belonged before. -/
theorem Marking.kept (h : Marking s t s' t') (hi : i ∈ s'.tracker.pending) :
    Owns i t' ∨ i ∈ s.tracker.pending ∧ (Owns i t → Owns i t') := by
  cases h with
  | keeps hkeeps _ => exact Or.inr (hkeeps i hi)
  | takes s₁ hdropped _ htakes _ =>
    have hold : i ∈ s₁.tracker.pending → i ∈ s.tracker.pending ∧ (Owns i t → Owns i t') := fun hi =>
      ⟨(hdropped i hi).1, fun howns => absurd howns (hdropped i hi).2⟩
    cases htakes with
    | piece j hpending howns _ =>
      rw [hpending] at hi
      rcases Finset.mem_insert.mp hi with rfl | hi
      · exact Or.inl howns
      · exact Or.inr (hold hi)
    | nothing hpending _ => exact Or.inr (hold (hpending ▸ hi))

theorem Marking.entered (h : Marking s t s' t') (hoff : s.endgame.active = false)
    (hon : s'.endgame.active = true) (hi : i < s'.tracker.pieceCount.toNat)
    (hgot : i ∉ s'.tracker.got) : i ∈ s'.tracker.pending := by
  cases h with
  | keeps _ hactive => rw [hactive hon] at hoff; cases hoff
  | takes s₁ _ hactive htakes hs =>
    have hsame : s'.endgame.active ≠ s₁.endgame.active := fun heq => by
      rw [hactive (heq ▸ hon)] at hoff
      cases hoff
    cases htakes with
    | piece _ _ _ heq => exact absurd heq hsame
    | nothing hpending hwhy =>
      rw [hs.marks.pieceCount] at hi
      rw [hs.marks.got] at hgot
      rw [hpending]
      exact (got_or_pending_of_select_none (hwhy.resolve_left hsame) hi).resolve_left hgot

structure Owned (s : Session) (procs : List Task) : Prop where
  specs : s.tracker.specs.length = s.tracker.pieceCount.toNat
  owned : ∀ i ∈ s.tracker.pending, ∃ t ∈ procs, Owns i t
  apart : ∀ i ∈ s.tracker.got, i ∉ s.tracker.pending
  written : ∀ t ∈ procs, ∀ index spec, stage t.point = .written index spec → index ∈ s.tracker.got

theorem turn_apart (h : Turn sha1 kind a s t s' t') (hapart : ∀ i ∈ s.tracker.got, i ∉ s.tracker.pending)
    (hi : i ∈ s'.tracker.got) : i ∉ s'.tracker.pending := by
  intro hp
  rcases h.effect with hs | ⟨index, spec, assembled, -, ⟨k, byte, -, rfl⟩ | rfl⟩
  · rw [hs.marks.got] at hi
    rcases hs.marks.pending i hp with hp | hp
    · exact hapart i hi hp
    · exact hp.2 hi
  · exact hapart i hi hp
  · rcases Finset.mem_insert.mp hi with rfl | hi
    · exact Finset.notMem_erase _ _ hp
    · exact hapart i hi (Finset.mem_of_mem_erase hp)

theorem Owned.marking (h : Owned s procs) (hn : procs[n]? = some t)
    (hturn : Turn sha1 kind a s t s' t') (htask : TaskOk sha1 s.tracker.specs t)
    (hok : Finds sha1 s procs n t a) : Marking s t s' t' :=
  turn_marking hturn htask hok h.specs fun index spec hstage =>
    h.apart index (h.written t (List.mem_of_getElem? hn) index spec hstage)

theorem Owned.turn (h : Owned s procs) (hn : procs[n]? = some t)
    (hturn : Turn sha1 kind a s t s' t') (htask : TaskOk sha1 s.tracker.specs t)
    (hok : Finds sha1 s procs n t a) : Owned s' (procs.set n t') where
  specs := hturn.specs_length h.specs
  owned i hi := by
    rcases (h.marking hn hturn htask hok).kept hi with hown | ⟨hi, hmove⟩
    · exact ⟨t', mem_set_self hn, hown⟩
    · exact exists_set hn (h.owned i hi) hmove
  apart i := turn_apart hturn h.apart
  written u hu index spec hstage := by
    rcases mem_set_cases hu with rfl | hu
    · rcases hturn.written hstage with hold | hgot
      · exact hturn.got_subset (h.written t (List.mem_of_getElem? hn) index spec hold)
      · exact hgot
    · exact hturn.got_subset (h.written u hu index spec hstage)

theorem owned_of_reach (hidle : Idle s₀)
    (hreach : Reach (taskStep sha1 kind) (Moves (Finds sha1)) ⟨s₀, []⟩ c) :
    Owned c.shared c.procs := by
  refine peers_invariant (I := Owned) hreach ?_ ?_ ?_
  · refine ⟨hidle.specs, fun i hi => ?_, fun i _ hi => ?_, fun t ht => by cases ht⟩
    · rw [hidle.pending] at hi
      cases hi
    · rw [hidle.pending] at hi
      cases hi
  · intro s procs addr given rates h
    refine ⟨h.specs, fun i hi => ?_, h.apart, fun t ht index spec hstage => ?_⟩
    · obtain ⟨t, ht, howns⟩ := h.owned i hi
      exact ⟨t, List.mem_append_left _ ht, howns⟩
    · rcases List.mem_append.mp ht with ht | ht
      · exact h.written t ht index spec hstage
      · rw [List.mem_singleton.mp ht] at hstage
        cases hstage
  · intro _ _ _ _ _ _ _ h hn hok htask hturn
    exact h.turn hn hturn htask hok

/-- In every run in which each search for a piece first comes upon one that the peer has, a pending
piece is the current piece of a live task; and when endgame is entered, so is every piece that is
not had. -/
theorem pending_owned (hidle : Idle s₀)
    (hreach : Reach (taskStep sha1 kind) (Moves (Finds sha1)) ⟨s₀, []⟩ c) :
    (∀ i ∈ c.shared.tracker.pending, ∃ t ∈ c.procs, Live t ∧ t.currentPiece = some i) ∧
      ∀ m c', Moves (Finds sha1) c m → apply (taskStep sha1 kind) c m = some c' →
        c.shared.endgame.active = false → c'.shared.endgame.active = true →
        ∀ i < c'.shared.tracker.pieceCount.toNat, i ∉ c'.shared.tracker.got →
          ∃ t ∈ c'.procs, Live t ∧ t.currentPiece = some i := by
  have howned := owned_of_reach hidle hreach
  refine ⟨howned.owned, fun m c' hok happ hoff hon i hi hgot => ?_⟩
  refine (owned_of_reach hidle (.next m hreach hok happ)).owned i ?_
  cases m with
  | spawn t =>
    rw [apply_spawn happ, hoff] at hon
    cases hon
  | act n a =>
    obtain ⟨t, s, t', hn, hs, rfl⟩ := apply_act happ
    obtain ⟨hspecs, htasks⟩ := tasks_ok hreach
    have htask : TaskOk sha1 c.shared.tracker.specs t := by
      rw [hspecs]
      exact htasks t (List.mem_of_getElem? hn)
    exact (howned.marking hn (turn_of_step hs) htask (hok t hn)).entered hoff hon hi hgot

/-- A peer that has the second of two pieces unchokes us. The first piece is marked, and nobody has
it. -/
theorem pending_orphan :
    ∃ s c, newTorrent 20 40 (List.replicate 40 7) = some s ∧
      run (taskStep id .files) ⟨s, []⟩ (joins 0 [64] ++ unchokes 0) = some c ∧
      (∀ t ∈ c.procs, Resting t) ∧ 0 ∈ c.shared.tracker.pending ∧
      ¬ ∃ t ∈ c.procs, Live t ∧ t.currentPiece = some 0 :=
  ⟨_, _, rfl, rfl, by decide +kernel, by decide +kernel, by decide +kernel⟩

theorem pending_owned_delivery :
    ∃ s c, newTorrent 20 20 (List.replicate 20 7) = some s ∧
      run (taskStep id .files) ⟨s, []⟩ (joins 0 [128] ++ unchokes 0) = some c ∧
      0 ∈ c.shared.tracker.pending ∧ ∃ t ∈ c.procs, Live t ∧ t.currentPiece = some 0 := by
  obtain ⟨s, hs⟩ : ∃ s, newTorrent 20 20 (List.replicate 20 7) = some s := ⟨_, rfl⟩
  obtain ⟨c, hrun, hpending, hok⟩ : ∃ c, run (taskStep id .files) ⟨s, []⟩
      (joins 0 [128] ++ unchokes 0) = some c ∧ 0 ∈ c.shared.tracker.pending ∧
        Allowed (taskStep id .files) (Moves (Finds id)) ⟨s, []⟩ (joins 0 [128] ++ unchokes 0) := by
    obtain rfl := Option.some.inj hs
    exact ⟨_, rfl, by decide +kernel, by decide +kernel⟩
  exact ⟨s, c, hs, hrun, hpending,
    (pending_owned (idle_of_newTorrent hs) (reach_run hok hrun)).1 0 hpending⟩

end PendingPieces
