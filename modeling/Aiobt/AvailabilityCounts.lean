import Aiobt.PeerRuns

/-! # Availability counts the peers

A step leaves the counts alone, adds what a peer announces, or removes what a peer that leaves has
announced. -/
namespace AvailabilityCounts

open ByteStrings PieceTracker PeerMessages PieceEngine SessionTasks PieceSearch EngineTurns
open InterleavedProcesses PeerRuns

variable {sha1 : Bytes → Bytes} {kind : StorageKind} {a : Action} {hint : ℕ} {s s' s₀ : Session}
  {t t' : Task} {c : Config Session Task} {procs : List Task} {n i : ℕ}

/-- A Bitfield comes from a peer that has announced nothing, and a Have announces a piece of the
torrent that the peer has not announced. -/
def Announces (s : Session) (_ : List Task) (_ : ℕ) (t : Task) : Action → Prop
  | .receives (.bitfield _) _ => t.peerPieces = ∅
  | .receives (.havePiece index) _ => index < s.tracker.pieceCount.toNat ∧ index ∉ t.peerPieces
  | _ => True

instance (s : Session) (procs : List Task) (i : ℕ) (t : Task) (a : Action) :
    Decidable (Announces s procs i t a) := by
  unfold Announces
  split <;> infer_instance

def HasPiece (i : ℕ) (t : Task) : Prop := Live t ∧ i ∈ t.peerPieces

instance (i : ℕ) (t : Task) : Decidable (HasPiece i t) := inferInstanceAs (Decidable (_ ∧ _))

inductive Counts (s : Session) (t : Task) (s' : Session) (t' : Task) : Prop
  | same : s'.tracker.availability = s.tracker.availability →
      (∀ i, HasPiece i t' ↔ HasPiece i t) → Counts s t s' t'
  | adds (pieces : Finset ℕ) :
      s'.tracker.availability = (s.tracker.updateAvailability pieces).availability →
      Live t → Live t' → t'.peerPieces = t.peerPieces ∪ pieces → Disjoint t.peerPieces pieces →
      (∀ i ∈ pieces, i < s.tracker.pieceCount.toNat) → Counts s t s' t'
  | removes : s'.tracker.availability = (s.tracker.removeAvailability t.peerPieces).availability →
      Live t → ¬ Live t' → Counts s t s' t'

theorem counts_of_running (hs : s'.tracker.availability = s.tracker.availability)
    (hpieces : t'.peerPieces = t.peerPieces) (hlive : Live t) (hlive' : Live t') :
    Counts s t s' t' := by
  refine .same hs fun i => ?_
  rw [HasPiece, HasPiece, hpieces]
  exact ⟨fun h => ⟨hlive, h.2⟩, fun h => ⟨hlive', h.2⟩⟩

section
variable {s₁ : Session} {t₁ : Task} (hs : s₁.tracker.availability = s.tracker.availability)
  (ht : t₁.peerPieces = t.peerPieces) (hlive : Live t)
include hs ht hlive

theorem cleanup_counts : Counts s t (cleanup s₁ t₁).1 (cleanup s₁ t₁).2 := by
  refine .removes ?_ hlive fun h => h rfl
  have hremoved : (cleanup s₁ t₁).1.tracker.availability =
      (s₁.tracker.removeAvailability t₁.peerPieces).availability := by
    simp only [cleanup]
    split <;> rfl
  rw [hremoved, ht]
  simp only [Tracker.removeAvailability, hs]

theorem nextPiece_counts (h : nextPiece hint s₁ t₁ = (s', t')) : Counts s t s' t' := by
  obtain ⟨tr, eg, started, hstart, hcases⟩ := nextPiece_cases h
  have havailability : tr.availability = s.tracker.availability := by
    have : (startPiece hint s₁.tracker s₁.endgame t₁).1.availability = s₁.tracker.availability :=
      startPiece_availability
    rw [hstart] at this
    exact this.trans hs
  rcases hcases with ⟨-, rfl, rfl⟩ | ⟨idx, spec, -, rfl, rfl⟩ | ⟨-, rfl, rfl⟩
  · exact counts_of_running havailability ht hlive (.of_running rfl)
  · obtain ⟨hsame, hpoint⟩ := samePieces_requestFrom (t₁.takePiece idx spec) spec 0
    exact counts_of_running havailability (hsame.peerPieces.trans ht) hlive (.of_running hpoint)
  · exact cleanup_counts havailability ht hlive

theorem finishPiece_counts (h : finishPiece hint s₁ t₁ = (s', t')) : Counts s t s' t' := by
  rcases finishPiece_cases h with ⟨-, rfl, rfl⟩ | ⟨-, -, rfl, rfl⟩ | ⟨-, -, hnext⟩
  · exact counts_of_running hs ht hlive (.of_running rfl)
  · exact counts_of_running hs ht hlive (.of_running rfl)
  · have hdrop : t₁.dropPiece.peerPieces = t.peerPieces := ht
    exact nextPiece_counts hs hdrop hlive hnext

end

theorem turn_counts (h : Turn sha1 kind a s t s' t') (htask : TaskOk sha1 s.tracker.specs t)
    (hok : Announces s procs n t a) : Counts s t s' t' := by
  have hreceive : t.point = .receive → Live t := fun hp => by
    refine .of_running ?_
    rw [hp]
    rfl
  cases h with
  | keeps hs ht hstage =>
    refine .same (by rw [hs.tracker]) fun i => ?_
    rw [HasPiece, HasPiece, Live, hstage, ht.peerPieces]
    rfl
  | begins _ hp =>
    refine counts_of_running rfl rfl ?_ (.of_running rfl)
    rw [Live, hp]
    intro hgone
    cases hgone
  | cancelled _ hp =>
    refine .same rfl fun i => ?_
    obtain ⟨-, hnone⟩ := htask.fresh (by rw [hp]; rfl)
    have hnone' : (t.goto .ended).peerPieces = ∅ := hnone
    rw [HasPiece, HasPiece, hnone, hnone']
    simp
  | @bitfield data _ _ _ ha hp hs ht hstage =>
    have hfirst : t.peerPieces = ∅ := by simpa [Announces, ha] using hok
    refine .adds (bitfieldToSet data s.tracker.pieceCount) (by rw [hs.tracker]) (hreceive hp)
      (.of_running hstage) ?_ ?_ fun i hi => (mem_bitfieldToSet.mp hi).1
    · rw [ht.peerPieces, hfirst, Finset.empty_union]
    · rw [hfirst]
      exact Finset.disjoint_empty_left _
  | @havePiece index _ _ _ ha hp hs ht hstage =>
    have hnew : index < s.tracker.pieceCount.toNat ∧ index ∉ t.peerPieces := by
      simpa [Announces, ha] using hok
    refine .adds {index} (by rw [hs.tracker]) (hreceive hp) (.of_running hstage) ?_ ?_ ?_
    · rw [ht.peerPieces, Finset.insert_eq, Finset.union_comm]
    · exact Finset.disjoint_singleton_right.mpr hnew.2
    · intro i hi
      rw [Finset.mem_singleton.mp hi]
      exact hnew.1
  | choked _ hp _ ht _ hstage =>
    exact counts_of_running rfl ht.peerPieces (hreceive hp) (.of_running hstage)
  | unchoked _ hp _ ht hstage =>
    exact counts_of_running rfl ht.peerPieces (hreceive hp) (.of_running hstage)
  | starts _ hp _ _ ht _ _ hnext => exact nextPiece_counts rfl ht.peerPieces (hreceive hp) hnext
  | verifies _ hp _ _ _ ht hstage =>
    refine counts_of_running rfl ht.peerPieces (hreceive hp) ?_
    rw [Live, hstage]
    intro hgone
    cases hgone
  | @fails index _ _ _ _ _ _ _ _ _ hp _ _ _ _ _ ht _ hfinish =>
    have hfailed : (s.tracker.markFailed index).availability = s.tracker.availability := rfl
    exact finishPiece_counts (by exact hfailed) ht.peerPieces (hreceive hp) hfinish
  | stores _ _ _ => exact .same rfl fun _ => Iff.rfl
  | writes _ hp =>
    refine counts_of_running rfl rfl ?_ ?_
    · rw [Live, hp]
      intro hgone
      cases hgone
    · intro hgone
      cases hgone
  | withdraws _ hp ht hstage =>
    refine counts_of_running rfl ht.peerPieces ?_ ?_
    · rw [Live, hp]
      intro hgone
      cases hgone
    · rw [Live, hstage]
      intro hgone
      cases hgone
  | finishes hstage _ htr _ _ _ _ hfinish =>
    refine finishPiece_counts (by rw [htr]) rfl ?_ hfinish
    rw [Live, hstage]
    intro hgone
    cases hgone
  | leaves _ hlive ht => exact cleanup_counts rfl ht.peerPieces hlive

/-- The count of a piece is the number of live tasks whose peers have it. -/
structure Exact (s : Session) (procs : List Task) : Prop where
  inside : ∀ t ∈ procs, ∀ i, HasPiece i t → i < s.tracker.pieceCount.toNat
  count : ∀ i, s.tracker.rarity i = procs.countP fun t => HasPiece i t
  outside : ∀ i, s.tracker.pieceCount.toNat ≤ i → s.tracker.availability i = none

theorem Exact.turn (h : Exact s procs) (hn : procs[n]? = some t)
    (hturn : Turn sha1 kind a s t s' t') (htask : TaskOk sha1 s.tracker.specs t)
    (hok : Announces s procs n t a) : Exact s' (procs.set n t') := by
  have hpc := hturn.pieceCount
  have hmem : t ∈ procs := List.mem_of_getElem? hn
  have hset : ∀ i, (procs.set n t').countP (fun t => decide (HasPiece i t)) +
      (if decide (HasPiece i t) = true then 1 else 0) = procs.countP (fun t => decide (HasPiece i t)) +
        (if decide (HasPiece i t') = true then 1 else 0) := fun i => countP_set_add _ hn
  have hothers : (∀ i, HasPiece i t' → i < s.tracker.pieceCount.toNat) →
      ∀ u ∈ procs.set n t', ∀ i, HasPiece i u → i < s'.tracker.pieceCount.toNat := by
    intro hnew
    rw [hpc]
    exact forall_mem_set h.inside hnew
  cases turn_counts hturn htask hok with
  | same hs hiff =>
    refine ⟨hothers fun i hi => h.inside t hmem i ((hiff i).mp hi), fun i => ?_, fun i hi => ?_⟩
    · have hi := hset i
      simp only [hiff] at hi
      rw [Tracker.rarity, hs, ← Tracker.rarity, h.count i]
      omega
    · rw [hs]
      exact h.outside i (hpc ▸ hi)
  | adds pieces hs hlive hlive' hpieces hdisjoint hrange =>
    have hhas : ∀ i, HasPiece i t' ↔ HasPiece i t ∨ i ∈ pieces := fun i => by
      rw [HasPiece, HasPiece, hpieces, Finset.mem_union]
      simp [hlive, hlive']
    refine ⟨hothers fun i hi => ?_, fun i => ?_, fun i hi => ?_⟩
    · rcases (hhas i).mp hi with hi | hi
      · exact h.inside t hmem i hi
      · exact hrange i hi
    · have hi := hset i
      rw [Tracker.rarity, hs]
      simp only [hhas, Tracker.updateAvailability] at hi ⊢
      have hold := h.count i
      rw [Tracker.rarity] at hold
      by_cases hnew : i ∈ pieces
      · have hnot : ¬ HasPiece i t := fun hhad => Finset.disjoint_left.mp hdisjoint hhad.2 hnew
        simp only [hnew, hnot, or_true, decide_true, decide_false, if_true, Option.getD_some] at hi ⊢
        simp at hi
        omega
      · simp only [hnew, or_false, if_false] at hi ⊢
        omega
    · have hnot : i ∉ pieces := fun hin => by
        have := hrange i hin
        rw [hpc] at hi
        omega
      rw [hs]
      simp only [Tracker.updateAvailability, hnot, if_false]
      exact h.outside i (hpc ▸ hi)
  | removes hs hlive hgone =>
    have hnone : ∀ i, ¬ HasPiece i t' := fun i hi => hgone hi.1
    refine ⟨hothers fun i hi => absurd hi (hnone i), fun i => ?_, fun i hi => ?_⟩
    · have hi := hset i
      rw [Tracker.rarity, hs]
      simp only [hnone, Tracker.removeAvailability] at hi ⊢
      have hold := h.count i
      rw [Tracker.rarity] at hold
      by_cases hhad : i ∈ t.peerPieces
      · have hyes : HasPiece i t := ⟨hlive, hhad⟩
        simp only [hhad, hyes, if_true] at hi ⊢
        simp at hi
        split
        · simp
          omega
        · simp
          omega
      · have hno : ¬ HasPiece i t := fun hyes => hhad hyes.2
        simp only [hhad, hno, if_false] at hi ⊢
        simp at hi
        omega
    · have hnot : i ∉ t.peerPieces := fun hin => by
        have := h.inside t hmem i ⟨hlive, hin⟩
        rw [hpc] at hi
        omega
      rw [hs]
      simp only [Tracker.removeAvailability, hnot, if_false]
      exact h.outside i (hpc ▸ hi)

theorem exact_of_reach (hidle : Idle s₀)
    (hreach : Reach (taskStep sha1 kind) (Moves Announces) ⟨s₀, []⟩ c) : Exact c.shared c.procs := by
  refine peers_invariant (I := Exact) hreach ?_ ?_ ?_
  · refine ⟨by simp, fun i => ?_, fun i _ => hidle.availability i⟩
    rw [Tracker.rarity, hidle.availability]
    rfl
  · intro s procs addr given rates h
    have hnone : ∀ i, ¬ HasPiece i (newTask addr given rates) := fun i hi => by
      have := hi.2
      simp [newTask] at this
    refine ⟨fun t ht i hi => ?_, fun i => ?_, h.outside⟩
    · rcases List.mem_append.mp ht with ht | ht
      · exact h.inside t ht i hi
      · rw [List.mem_singleton.mp ht] at hi
        exact absurd hi (hnone i)
    · rw [h.count, List.countP_append, List.countP_singleton]
      simp [hnone i]
  · intro _ _ _ _ _ _ _ h hn hok htask hturn
    exact h.turn hn hturn htask hok

/-- In every run in which peers announce each piece of the torrent once, and no others, the
availability of a piece is the number of live tasks whose peers have it. -/
theorem availability_exact (hidle : Idle s₀)
    (hreach : Reach (taskStep sha1 kind) (Moves Announces) ⟨s₀, []⟩ c) :
    (∀ i < c.shared.tracker.pieceCount.toNat,
      c.shared.tracker.rarity i = c.procs.countP fun t => Live t ∧ i ∈ t.peerPieces) ∧
      ∀ i, c.shared.tracker.pieceCount.toNat ≤ i → c.shared.tracker.availability i = none := by
  have hexact := exact_of_reach hidle hreach
  exact ⟨fun i _ => hexact.count i, hexact.outside⟩

/-- The peer announces its piece twice, and then a piece that the torrent does not have. -/
theorem availability_drifts :
    ∃ s c, newTorrent 20 20 (List.replicate 20 7) = some s ∧
      run (taskStep id .files) ⟨s, []⟩ (joins 0 [128] ++ [.act 0 (.receives (.bitfield [128]) 0),
        .act 0 (.returns 0), .act 0 (.receives (.havePiece 7) 0)]) = some c ∧
      (∀ t ∈ c.procs, Resting t) ∧ c.shared.tracker.rarity 0 = 2 ∧
      (c.procs.countP fun t => Live t ∧ 0 ∈ t.peerPieces) = 1 ∧
      c.shared.tracker.availability 7 = some 1 :=
  ⟨_, _, rfl, rfl, by decide +kernel, by decide +kernel, by decide +kernel, by decide +kernel⟩

theorem availability_exact_delivery :
    ∃ s c, newTorrent 20 20 (List.replicate 20 7) = some s ∧
      run (taskStep id .files) ⟨s, []⟩ delivery = some c ∧
      c.shared.tracker.rarity 0 = (c.procs.countP fun t => Live t ∧ 0 ∈ t.peerPieces) ∧
      c.shared.tracker.rarity 0 = 1 := by
  obtain ⟨s, hs⟩ : ∃ s, newTorrent 20 20 (List.replicate 20 7) = some s := ⟨_, rfl⟩
  obtain ⟨c, hrun, hone, hcount, hok⟩ : ∃ c, run (taskStep id .files) ⟨s, []⟩ delivery = some c ∧
      c.shared.tracker.rarity 0 = 1 ∧ 0 < c.shared.tracker.pieceCount.toNat ∧
        Allowed (taskStep id .files) (Moves Announces) ⟨s, []⟩ delivery := by
    obtain rfl := Option.some.inj hs
    exact ⟨_, rfl, by decide +kernel, by decide +kernel, by decide +kernel⟩
  exact ⟨s, c, hs, hrun, (availability_exact (idle_of_newTorrent hs) (reach_run hok hrun)).1 0 hcount,
    hone⟩

end AvailabilityCounts
