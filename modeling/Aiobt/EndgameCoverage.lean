import Aiobt.EngineTurns

/-! # The endgame covers what is missing

Once the endgame is active its pieces are pieces of the torrent, and all that are missing are among
them. So a task that takes part in it is given nothing only where its peer has nothing to give. -/
namespace EndgameCoverage

open ByteStrings PieceTracker PeerMessages PieceEngine SessionTasks PieceSearch EngineTurns

variable {sha1 : Bytes → Bytes} {kind : StorageKind} {a : Action} {hint : ℕ} {s s' : Session}
  {t t' : Task} {i : ℕ} {tr tr' : Tracker} {eg eg' : EndgameState} {peerPieces : Finset ℕ}
  {addr : Address}

structure Covers (tr : Tracker) (eg : EndgameState) : Prop where
  inside : ∀ i ∈ eg.pieces, i < tr.pieceCount.toNat
  missing : eg.active = true → ∀ i < tr.pieceCount.toNat, i ∉ tr.got → i ∈ eg.pieces

theorem Covers.of_marks (h : Covers tr eg) (hm : Marks tr tr') (hactive : eg'.active = eg.active)
    (hpieces : eg'.pieces = eg.pieces) : Covers tr' eg' where
  inside i hi := by
    rw [hm.pieceCount]
    exact h.inside i (hpieces ▸ hi)
  missing hon i hi hgot := by
    rw [hm.pieceCount] at hi
    rw [hm.got] at hgot
    rw [hpieces]
    exact h.missing (hactive ▸ hon) i hi hgot

theorem Covers.pieceDone (h : Covers tr eg) (hgot : i ∈ tr.got) : Covers tr (eg.pieceDone i).1 where
  inside j hj := h.inside j (Finset.mem_of_mem_erase hj)
  missing hon j hj hmissing := by
    have hactive : eg.active = true := (Bool.and_eq_true_iff.mp hon).1
    refine Finset.mem_erase.mpr ⟨?_, h.missing hactive j hj hmissing⟩
    rintro rfl
    exact hmissing hgot

theorem Covers.activate (h : Covers tr eg) : Covers tr (activate tr eg) := by
  unfold PieceEngine.activate
  simp only
  split
  · constructor
    · intro i hi
      exact Finset.mem_range.mp (Finset.mem_filter.mp hi).1
    · intro _ i hi hgot
      exact Finset.mem_filter.mpr ⟨Finset.mem_range.mpr hi, hgot⟩
  · exact h

theorem activate_active (hoff : (activate tr eg).active ≠ true) (hi : i < tr.pieceCount.toNat) :
    i ∈ tr.got := by
  unfold PieceEngine.activate at hoff
  simp only at hoff
  split at hoff
  · exact absurd rfl hoff
  · next hno =>
    by_contra hgot
    refine hno ⟨hoff, Finset.nonempty_iff_ne_empty.mp ⟨i, ?_⟩⟩
    exact Finset.mem_filter.mpr ⟨Finset.mem_range.mpr hi, hgot⟩

theorem Covers.markHave (h : Covers tr eg) (index : ℕ) : Covers (tr.markHave index) eg :=
  ⟨h.inside, fun hon j hj hgot => h.missing hon j hj fun hhad =>
    hgot (Finset.mem_insert_of_mem hhad)⟩

theorem got_of_complete (hinside : ∀ i ∈ tr.got, i < tr.pieceCount.toNat)
    (hcomplete : tr.isComplete) (hi : i < tr.pieceCount.toNat) : i ∈ tr.got := by
  have hsub : tr.got ⊆ Finset.range tr.pieceCount.toNat := fun j hj =>
    Finset.mem_range.mpr (hinside j hj)
  have hall : tr.got = Finset.range tr.pieceCount.toNat := by
    refine Finset.eq_of_subset_of_card_le hsub ?_
    have hcard : (tr.got.card : ℤ) = tr.pieceCount := hcomplete
    rw [Finset.card_range]
    omega
  rw [hall]
  exact Finset.mem_range.mpr hi

theorem startEndgame_covers (h : Covers tr eg) :
    Covers tr (startEndgame hint tr eg peerPieces addr).1 := by
  have hactivate := h.activate
  unfold startEndgame
  simp only
  split
  · split
    · exact hactivate
    · split
      · exact hactivate
      · exact ⟨hactivate.inside, hactivate.missing⟩
  · exact hactivate

theorem startEndgame_started (hint : ℕ) (peerPieces : Finset ℕ) (addr : Address)
    (hcovers : Covers tr eg)
    (hspecs : tr.specs.length = tr.pieceCount.toNat) :
    (∃ i spec, (startEndgame hint tr eg peerPieces addr).2 = .piece i spec) ∨
      (startEndgame hint tr eg peerPieces addr).2 = .nothing ∧
        ∀ i ∈ peerPieces, i < tr.pieceCount.toNat → i ∈ tr.got := by
  have hactivate := hcovers.activate
  unfold startEndgame
  simp only
  split
  · next hon =>
    split
    · next hnone =>
      refine Or.inr ⟨rfl, fun i hpeer hi => ?_⟩
      by_contra hgot
      have hmem : i ∈ (activate tr eg).pieces.filter fun i => i ∈ peerPieces ∧ i ∉ tr.got :=
        Finset.mem_filter.mpr ⟨hactivate.missing hon i hi hgot, hpeer, hgot⟩
      rw [firstOf_none hnone] at hmem
      cases hmem
    · next idx hidx =>
      have hlt := hactivate.inside idx (Finset.mem_filter.mp (firstOf_some hidx)).1
      rw [List.getElem?_eq_getElem (hspecs ▸ hlt)]
      exact Or.inl ⟨_, _, rfl⟩
  · next hoff => exact Or.inr ⟨rfl, fun i _ hi => activate_active hoff hi⟩

theorem startPiece_covers (hint : ℕ) (t : Task) (h : Covers tr eg) :
    Covers (startPiece hint tr eg t).1 (startPiece hint tr eg t).2.1 := by
  have hmarks : Marks tr (startPiece hint tr eg t).1 := startPiece_marks
  have hsearch := (search_spec t.peerPieces tr).marks
  unfold startPiece at hmarks ⊢
  cases hs : search t.peerPieces tr with
  | mk tr₁ found =>
    rw [hs] at hmarks hsearch
    cases found with
    | some idx =>
      simp only at hmarks ⊢
      split at hmarks
      · exact h.of_marks hmarks rfl rfl
      · simp only
        split
        · exact h.of_marks hmarks rfl rfl
        · exact h.of_marks hmarks rfl rfl
    | none =>
      simp only
      split
      · exact startEndgame_covers (h.of_marks hsearch rfl rfl)
      · exact h.of_marks hsearch rfl rfl

/-- A task that takes part in the endgame gets a piece that its peer has and that is missing, if
there is one. -/
theorem startPiece_started (hint : ℕ) (hcovers : Covers tr eg)
    (hspecs : tr.specs.length = tr.pieceCount.toNat)
    (hinside : ∀ i ∈ tr.got, i < tr.pieceCount.toNat) (hgiven : t.endgameGiven = true) :
    (∃ i spec, (startPiece hint tr eg t).2.2 = .piece i spec) ∨
      (startPiece hint tr eg t).2.2 = .nothing ∧
        ∀ i ∈ t.peerPieces, i < tr.pieceCount.toNat → i ∈ tr.got := by
  have hsearch := (search_spec t.peerPieces tr).marks
  unfold startPiece
  cases hs : search t.peerPieces tr with
  | mk tr₁ found =>
    rw [hs] at hsearch
    cases found with
    | some idx =>
      obtain ⟨-, hlt, -⟩ := search_some (show (search t.peerPieces tr).2 = some idx by rw [hs])
      have hspec : (tr₁.markPending idx).specs[idx]? = some tr.specs[idx] := by
        rw [Tracker.markPending_specs, hsearch.specs]
        exact List.getElem?_eq_getElem (hspecs ▸ hlt)
      simp only [hspec]
      exact Or.inl ⟨_, _, rfl⟩
    | none =>
      simp only
      split
      · have hspecs₁ : tr₁.specs.length = tr₁.pieceCount.toNat := by
          rw [hsearch.specs, hsearch.pieceCount]
          exact hspecs
        have hstarted := startEndgame_started hint t.peerPieces t.addr
          (hcovers.of_marks hsearch rfl rfl) hspecs₁
        rw [hsearch.pieceCount, hsearch.got] at hstarted
        exact hstarted
      · next hclosed =>
        refine Or.inr ⟨rfl, fun i _ hi => got_of_complete hinside ?_ hi⟩
        rw [← hsearch.isComplete]
        by_contra hincomplete
        exact hclosed ⟨hgiven, hincomplete⟩

theorem cleanup_covers (hcovers : Covers s.tracker s.endgame) :
    Covers (cleanup s t).1.tracker (cleanup s t).1.endgame := by
  refine hcovers.of_marks (cleanup_undisturbed s t).marks ?_ ?_
  · simp only [cleanup]
    split <;> rfl
  · simp only [cleanup]
    split <;> rfl

theorem nextPiece_covers (h : Covers s.tracker s.endgame) (hnext : nextPiece hint s t = (s', t')) :
    Covers s'.tracker s'.endgame := by
  obtain ⟨tr, eg, started, hstart, hcases⟩ := nextPiece_cases hnext
  have hcovers : Covers tr eg := by
    have hpiece := startPiece_covers hint t h
    rw [hstart] at hpiece
    exact hpiece
  rcases hcases with ⟨-, rfl, -⟩ | ⟨_, _, -, rfl, -⟩ | ⟨-, rfl, -⟩
  · exact hcovers
  · exact hcovers
  · exact cleanup_covers hcovers

theorem finishPiece_covers (h : Covers s.tracker s.endgame)
    (hfinish : finishPiece hint s t = (s', t')) : Covers s'.tracker s'.endgame := by
  rcases finishPiece_cases hfinish with ⟨-, rfl, -⟩ | ⟨-, -, rfl, -⟩ | ⟨-, -, hnext⟩
  · exact h
  · exact h
  · exact nextPiece_covers h hnext

/-- A piece that is taken out of the endgame has been written. -/
theorem turn_covers (h : Turn sha1 kind a s t s' t') (hcovers : Covers s.tracker s.endgame)
    (hwritten : ∀ index spec, stage t.point = .written index spec → index ∈ s.tracker.got) :
    Covers s'.tracker s'.endgame := by
  have hupdated : ∀ pieces, Covers (s.tracker.updateAvailability pieces) s.endgame := fun pieces =>
    hcovers.of_marks (Marks.updateAvailability _ pieces) rfl rfl
  have hfailed : ∀ index, Covers (s.tracker.markFailed index) s.endgame := fun index =>
    hcovers.of_marks (Marks.markFailed _ index) rfl rfl
  cases h with
  | keeps hs =>
    rw [hs.tracker, hs.endgame]
    exact hcovers
  | begins => exact hcovers
  | cancelled => exact hcovers
  | bitfield _ _ hs =>
    rw [hs.tracker, hs.endgame]
    exact hupdated _
  | havePiece _ _ hs =>
    rw [hs.tracker, hs.endgame]
    exact hupdated _
  | choked => exact hfailed _
  | unchoked => exact hcovers
  | starts _ _ _ _ _ _ _ hnext => exact nextPiece_covers hcovers hnext
  | verifies => exact hcovers
  | @fails index _ _ _ _ _ t₁ _ _ _ _ _ _ _ _ _ _ _ hfinish =>
    exact finishPiece_covers (by exact hfailed index) hfinish
  | stores => exact hcovers
  | writes => exact hcovers.markHave _
  | @withdraws index spec _ _ _ hp =>
    exact hcovers.pieceDone (hwritten index spec (by rw [hp]; rfl))
  | @finishes index spec _ s₁ _ _ hstage _ htr _ _ _ hendgame hfinish =>
    refine finishPiece_covers ?_ hfinish
    rw [htr]
    rcases hendgame with hsame | hdone
    · rw [hsame]
      exact hcovers
    · rw [hdone]
      exact hcovers.pieceDone (hwritten index spec hstage)
  | leaves => exact cleanup_covers hcovers

end EndgameCoverage
