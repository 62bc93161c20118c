import Aiobt.PieceEngine
import Aiobt.LeastByKey

/-! # What `_start_piece` finds

The search marks pieces on the tracker until it comes upon one that the peer has. -/
namespace PieceSearch

open ByteStrings PieceTracker PieceEngine LeastByKey

variable {tr tr' tr'' : Tracker} {i : ℕ}

theorem mem_candidates : i ∈ tr.candidates ↔ i < tr.pieceCount.toNat ∧ i ∉ tr.got ∧ i ∉ tr.pending := by
  simp [Tracker.candidates]

theorem selectPiece_eq_none : tr.selectPiece = none ↔ tr.candidates = [] := by
  rw [Tracker.selectPiece, List.head?_eq_none_iff, ← List.length_eq_zero_iff,
    List.length_insertionSort, List.length_eq_zero_iff]

/-- The selection is the rarest candidate, the first of those that are equally rare. -/
theorem selectPiece_leastBy (h : tr.selectPiece = some i) :
    LeastBy tr.rarity {j | j ∈ tr.candidates} i := by
  have hsorted : tr.candidates.Pairwise (· < ·) := by
    rw [Tracker.candidates]
    exact (List.pairwise_lt_range).filter _
  exact head_insertionSort_leastBy hsorted h

theorem got_or_pending_of_select_none (h : tr.selectPiece = none) (hi : i < tr.pieceCount.toNat) :
    i ∈ tr.got ∨ i ∈ tr.pending := by
  by_contra hno
  rw [not_or] at hno
  have hmem : i ∈ tr.candidates := mem_candidates.mpr ⟨hi, hno⟩
  rw [selectPiece_eq_none.mp h] at hmem
  cases hmem

theorem candidates_markPending_lt (h : i ∈ tr.candidates) :
    (tr.markPending i).candidates.length < tr.candidates.length := by
  have heq : (tr.markPending i).candidates = tr.candidates.filter fun j => j ≠ i := by
    simp only [Tracker.candidates, List.filter_filter]
    apply List.filter_congr
    intro j _
    by_cases hj : j = i
    · simp [Tracker.markPending, hj]
    · simp [Tracker.markPending, hj]
  rw [heq]
  refine List.length_filter_lt_length_iff_exists.mpr ⟨i, h, ?_⟩
  simp

theorem candidates_markFailed (h : i ∉ tr.pending) : (tr.markFailed i).candidates = tr.candidates := by
  apply List.filter_congr
  intro j _
  simp [Tracker.markFailed, Finset.erase_eq_of_notMem h]

/-- The tracker is the same but for marks: a piece that comes to be pending was neither had nor
pending. -/
structure Marks (tr tr' : Tracker) : Prop where
  specs : tr'.specs = tr.specs
  pieceCount : tr'.pieceCount = tr.pieceCount
  got : tr'.got = tr.got
  pending : ∀ i ∈ tr'.pending, i ∈ tr.pending ∨ i < tr.pieceCount.toNat ∧ i ∉ tr.got

namespace Marks

theorem refl (tr : Tracker) : Marks tr tr := ⟨rfl, rfl, rfl, fun _ h => Or.inl h⟩

theorem trans (h : Marks tr tr') (k : Marks tr' tr'') : Marks tr tr'' where
  specs := k.specs.trans h.specs
  pieceCount := k.pieceCount.trans h.pieceCount
  got := k.got.trans h.got
  pending i hi := by
    rcases k.pending i hi with hi | hi
    · exact h.pending i hi
    · rw [h.pieceCount, h.got] at hi
      exact Or.inr hi

theorem markFailed (tr : Tracker) (i : ℕ) : Marks tr (tr.markFailed i) :=
  ⟨rfl, rfl, rfl, fun _ hj => Or.inl (Finset.mem_of_mem_erase hj)⟩

theorem markPending (hi : i < tr.pieceCount.toNat) (hgot : i ∉ tr.got) : Marks tr (tr.markPending i) := by
  refine ⟨rfl, rfl, rfl, fun j hj => ?_⟩
  rcases Finset.mem_insert.mp hj with rfl | hj
  · exact Or.inr ⟨hi, hgot⟩
  · exact Or.inl hj

theorem updateAvailability (tr : Tracker) (pieces : Finset ℕ) :
    Marks tr (tr.updateAvailability pieces) := ⟨rfl, rfl, rfl, fun _ hj => Or.inl hj⟩

theorem removeAvailability (tr : Tracker) (pieces : Finset ℕ) :
    Marks tr (tr.removeAvailability pieces) := ⟨rfl, rfl, rfl, fun _ hj => Or.inl hj⟩

theorem isComplete (h : Marks tr tr') : tr'.isComplete ↔ tr.isComplete := by
  rw [Tracker.isComplete, Tracker.isComplete, h.got, h.pieceCount]

end Marks

variable {peerPieces : Finset ℕ}

/-- Induction over the passes of the loop. Each pass leaves a candidate fewer, so that with enough
fuel none is missing. -/
theorem searchLoop_induction {P : Tracker → Tracker × Option ℕ → Prop} {fuel : ℕ}
    (h : tr.candidates.length < fuel)
    (hnone : ∀ {tr}, tr.selectPiece = none → P tr (tr, none))
    (hfirst : ∀ {tr i}, tr.selectPiece = some i → i ∈ peerPieces → P tr (tr, some i))
    (hmarked : ∀ {tr i}, tr.selectPiece = some i → i ∉ peerPieces →
      (tr.markPending i).selectPiece = none → P tr (tr.markPending i, none))
    (hsecond : ∀ {tr i j}, tr.selectPiece = some i → i ∉ peerPieces →
      (tr.markPending i).selectPiece = some j → j ∈ peerPieces → P tr (tr.markPending i, some j))
    (hpass : ∀ {tr i j r}, tr.selectPiece = some i → i ∉ peerPieces →
      (tr.markPending i).selectPiece = some j → j ∉ peerPieces →
        P ((tr.markPending i).markFailed j) r → P tr r) :
    P tr (searchLoop peerPieces fuel tr tr.selectPiece) := by
  induction fuel generalizing tr with
  | zero => cases h
  | succ fuel ih =>
    cases hsel : tr.selectPiece with
    | none => exact hnone hsel
    | some i =>
      obtain ⟨hlt, hgot, hpend⟩ := Tracker.selectPiece_spec hsel
      have hfewer := candidates_markPending_lt (mem_candidates.mpr ⟨hlt, hgot, hpend⟩)
      rw [searchLoop]
      by_cases hi : i ∈ peerPieces
      · rw [if_pos hi]
        exact hfirst hsel hi
      · rw [if_neg hi]
        dsimp only
        cases hnext : (tr.markPending i).selectPiece with
        | none => exact hmarked hsel hi hnext
        | some j =>
          dsimp only
          by_cases hj : j ∈ peerPieces
          · rw [if_pos hj]
            exact hsecond hsel hi hnext hj
          · rw [if_neg hj]
            obtain ⟨-, -, hpend'⟩ := Tracker.selectPiece_spec hnext
            refine hpass hsel hi hnext hj (ih ?_)
            rw [candidates_markFailed hpend']
            omega

structure Searched (peerPieces : Finset ℕ) (tr : Tracker) (r : Tracker × Option ℕ) : Prop where
  marks : Marks tr r.1
  selects : r.1.selectPiece = r.2
  has : ∀ i, r.2 = some i → i ∈ peerPieces

/-- With enough fuel the loop ends at a piece of the peer that can be selected, or nothing can be
selected any more. -/
theorem searchLoop_spec {fuel : ℕ} (h : tr.candidates.length < fuel) :
    Searched peerPieces tr (searchLoop peerPieces fuel tr tr.selectPiece) := by
  refine searchLoop_induction h ?_ ?_ ?_ ?_ ?_
  · exact fun hsel => ⟨Marks.refl _, hsel, fun i hi => by cases hi⟩
  · intro tr i hsel hi
    refine ⟨Marks.refl tr, hsel, fun j hj => ?_⟩
    rw [← Option.some.inj hj]
    exact hi
  · intro tr i hsel _ hnext
    obtain ⟨hlt, hgot, -⟩ := Tracker.selectPiece_spec hsel
    exact ⟨Marks.markPending hlt hgot, hnext, fun i hi => by cases hi⟩
  · intro tr i j hsel _ hnext hj
    obtain ⟨hlt, hgot, -⟩ := Tracker.selectPiece_spec hsel
    refine ⟨Marks.markPending hlt hgot, hnext, fun k hk => ?_⟩
    rw [← Option.some.inj hk]
    exact hj
  · intro tr i j r hsel _ _ _ h
    obtain ⟨hlt, hgot, -⟩ := Tracker.selectPiece_spec hsel
    have hmarks := (Marks.markPending hlt hgot).trans (Marks.markFailed _ j)
    exact ⟨hmarks.trans h.marks, h.selects, h.has⟩

/-- The search is over when a piece of the peer is found or nothing can be selected. -/
theorem search_spec (peerPieces : Finset ℕ) (tr : Tracker) :
    Searched peerPieces tr (search peerPieces tr) := searchLoop_spec (Nat.lt_succ_self _)

theorem search_some (h : (search peerPieces tr).2 = some i) :
    i ∈ peerPieces ∧ i < tr.pieceCount.toNat ∧ i ∉ tr.got := by
  obtain ⟨hmarks, hsel, hmem⟩ := search_spec peerPieces tr
  have hi := Tracker.selectPiece_spec (hsel.trans h)
  rw [hmarks.pieceCount, hmarks.got] at hi
  exact ⟨hmem i h, hi.1, hi.2.1⟩

/-- A first selection that the peer has ends the search before anything is marked. -/
theorem search_first (h : ∀ i, tr.selectPiece = some i → i ∈ peerPieces) :
    search peerPieces tr = (tr, tr.selectPiece) := by
  rw [search]
  cases hsel : tr.selectPiece with
  | none => rfl
  | some i => rw [searchLoop, if_pos (h i hsel)]

theorem searchLoop_availability {fuel : ℕ} {found : Option ℕ} :
    (searchLoop peerPieces fuel tr found).1.availability = tr.availability := by
  fun_induction searchLoop peerPieces fuel tr found with
  | case6 _ _ _ _ _ _ _ _ _ ih => exact ih
  | _ => rfl

variable {hint : ℕ} {eg eg' : EndgameState} {t : Task} {spec : PieceSpec} {pieces : Finset ℕ}
  {addr : Address}

theorem firstOf_some (h : firstOf hint pieces = some i) : i ∈ pieces := by
  unfold firstOf at h
  split at h
  · next hm => exact Option.some.inj h ▸ hm
  · split at h
    · exact Option.some.inj h ▸ Finset.min'_mem _ _
    · cases h

theorem firstOf_none (h : firstOf hint pieces = none) : pieces = ∅ := by
  unfold firstOf at h
  split at h
  · cases h
  · split at h
    · cases h
    · next hne => exact Finset.not_nonempty_iff_eq_empty.mp hne

theorem startEndgame_piece {idx : ℕ}
    (h : startEndgame hint tr eg peerPieces addr = (eg', .piece idx spec)) :
    idx ∈ peerPieces ∧ idx ∉ tr.got ∧ tr.specs[idx]? = some spec := by
  unfold startEndgame at h
  simp only at h
  split at h
  · split at h
    · cases h
    · next found hfound =>
      have hmem := (Finset.mem_filter.mp (firstOf_some hfound)).2
      split at h
      · cases h
      · next found' hspec =>
        simp only [Prod.mk.injEq, Started.piece.injEq] at h
        obtain ⟨-, rfl, rfl⟩ := h
        exact ⟨hmem.1, hmem.2, hspec⟩
  · cases h

theorem startPiece_marks : Marks tr (startPiece hint tr eg t).1 := by
  have hspec := search_spec t.peerPieces tr
  unfold startPiece
  cases hs : search t.peerPieces tr with
  | mk tr₁ found =>
    rw [hs] at hspec
    cases found with
    | none =>
      simp only
      split
      · exact hspec.marks
      · exact hspec.marks
    | some idx =>
      obtain ⟨-, hlt, hgot⟩ := search_some (show (search t.peerPieces tr).2 = some idx by rw [hs])
      have hmarks : Marks tr (tr₁.markPending idx) := by
        refine hspec.1.trans (Marks.markPending ?_ ?_)
        · rw [hspec.1.pieceCount]
          exact hlt
        · rw [hspec.1.got]
          exact hgot
      simp only
      split
      · exact hmarks
      · exact hmarks

theorem startPiece_availability :
    (startPiece hint tr eg t).1.availability = tr.availability := by
  have hsearch : (search t.peerPieces tr).1.availability = tr.availability := searchLoop_availability
  unfold startPiece
  cases hs : search t.peerPieces tr with
  | mk tr₁ found =>
    rw [hs] at hsearch
    cases found with
    | none =>
      simp only
      split
      · exact hsearch
      · exact hsearch
    | some idx =>
      simp only
      split
      · exact hsearch
      · exact hsearch

theorem startPiece_piece {idx : ℕ} (h : startPiece hint tr eg t = (tr', eg', .piece idx spec)) :
    idx ∈ t.peerPieces ∧ idx ∉ tr.got ∧ tr.specs[idx]? = some spec := by
  have hmarks := (search_spec t.peerPieces tr).marks
  unfold startPiece at h
  cases hs : search t.peerPieces tr with
  | mk tr₁ found =>
    rw [hs] at h hmarks
    cases found with
    | none =>
      simp only at h
      split at h
      · obtain ⟨-, h⟩ := Prod.mk.inj h
        obtain ⟨hpeer, hgot, hspec⟩ := startEndgame_piece h
        rw [hmarks.got] at hgot
        rw [hmarks.specs] at hspec
        exact ⟨hpeer, hgot, hspec⟩
      · cases h
    | some found =>
      obtain ⟨hpeer, -, hgot⟩ := search_some (show (search t.peerPieces tr).2 = some found by rw [hs])
      simp only at h
      split at h
      · cases h
      · next spec' hspec =>
        simp only [Prod.mk.injEq, Started.piece.injEq] at h
        obtain ⟨-, -, rfl, rfl⟩ := h
        rw [Tracker.markPending_specs, hmarks.specs] at hspec
        exact ⟨hpeer, hgot, hspec⟩

theorem activate_pieces (h : i ∈ (activate tr eg).pieces) :
    i ∈ eg.pieces ∨ i < tr.pieceCount.toNat := by
  unfold activate at h
  simp only at h
  split at h
  · exact Or.inr (Finset.mem_range.mp (Finset.mem_filter.mp h).1)
  · exact Or.inl h

theorem startEndgame_pieces (h : i ∈ (startEndgame hint tr eg peerPieces addr).1.pieces) :
    i ∈ eg.pieces ∨ i < tr.pieceCount.toNat := by
  apply activate_pieces
  unfold startEndgame at h
  simp only at h
  split at h
  · split at h
    · exact h
    · split at h
      · exact h
      · exact h
  · exact h

theorem startPiece_pieces (h : i ∈ (startPiece hint tr eg t).2.1.pieces) :
    i ∈ eg.pieces ∨ i < tr.pieceCount.toNat := by
  have hmarks := (search_spec t.peerPieces tr).marks
  unfold startPiece at h
  cases hs : search t.peerPieces tr with
  | mk tr₁ found =>
    rw [hs] at h hmarks
    cases found with
    | none =>
      simp only at h
      split at h
      · rw [← hmarks.pieceCount]
        exact startEndgame_pieces h
      · exact Or.inl h
    | some idx =>
      simp only at h
      split at h
      · exact Or.inl h
      · split at h
        · exact Or.inl h
        · exact Or.inl h

end PieceSearch
