import Aiobt.EndgameCoverage
import Aiobt.TrackerAccounting

/-! # The piece that a peer is asked for

What `_start_piece` returns: the rarest piece of the peer that is neither had nor pending, then any
that is missing, and nothing only where the peer has none that is missing. -/
namespace PieceChoice

open ByteStrings PieceTracker PeerMessages PieceEngine SessionTasks PieceSearch EngineTurns
open InterleavedProcesses LeastByKey EndgameCoverage VerifiedPieces TrackerAccounting

variable {peerPieces : Finset ℕ} {tr tr' tr₀ : Tracker} {i : ℕ} {found : Option ℕ}

/-- One pass of the loop; `none` where its condition does not hold. -/
def searchPass (peerPieces : Finset ℕ) : Tracker × Option ℕ → Option (Tracker × Option ℕ)
  | (_, none) => none
  | (tracker, some idx) =>
    if idx ∈ peerPieces then none
    else
      let tracker := tracker.markPending idx
      match tracker.selectPiece with
      | none => some (tracker, none)
      | some idx =>
        if idx ∈ peerPieces then some (tracker, some idx)
        else
          let tracker := tracker.markFailed idx
          some (tracker, tracker.selectPiece)

/-- The loop ends in a state, after finitely many passes. -/
inductive Ends (peerPieces : Finset ℕ) : Tracker × Option ℕ → Tracker × Option ℕ → Prop
  | done {x} : searchPass peerPieces x = none → Ends peerPieces x x
  | pass {x y z} : searchPass peerPieces x = some y → Ends peerPieces y z → Ends peerPieces x z

theorem ends_none (peerPieces : Finset ℕ) (tr : Tracker) :
    Ends peerPieces (tr, none) (tr, none) := .done rfl

theorem ends_found (tr : Tracker) (h : i ∈ peerPieces) :
    Ends peerPieces (tr, some i) (tr, some i) := .done (if_pos h)

theorem searchLoop_ends {fuel : ℕ} (h : tr.candidates.length < fuel) :
    Ends peerPieces (tr, tr.selectPiece) (searchLoop peerPieces fuel tr tr.selectPiece) := by
  refine searchLoop_induction (P := fun tr r => Ends peerPieces (tr, tr.selectPiece) r) h ?_ ?_ ?_ ?_ ?_
  · intro tr hsel
    rw [hsel]
    exact ends_none peerPieces tr
  · intro tr i hsel hi
    rw [hsel]
    exact ends_found tr hi
  · intro tr i hsel hi hnext
    rw [hsel]
    refine .pass ?_ (ends_none peerPieces _)
    simp only [searchPass, if_neg hi, hnext]
  · intro tr i j hsel hi hnext hj
    rw [hsel]
    refine .pass ?_ (ends_found _ hj)
    simp only [searchPass, if_neg hi, hnext, if_pos hj]
  · intro tr i j r hsel hi hnext hj h
    rw [hsel]
    refine .pass ?_ h
    simp only [searchPass, if_neg hi, hnext, if_neg hj]

theorem search_ends (peerPieces : Finset ℕ) (tr : Tracker) :
    Ends peerPieces (tr, tr.selectPiece) (search peerPieces tr) :=
  searchLoop_ends (Nat.lt_succ_self _)

def useful (tr : Tracker) (peerPieces : Finset ℕ) : Set ℕ :=
  {i | i ∈ peerPieces ∧ (i : ℤ) < tr.pieceCount ∧ i ∉ tr.got ∧ i ∉ tr.pending}

theorem mem_useful : i ∈ useful tr peerPieces ↔ i ∈ peerPieces ∧ i ∈ tr.candidates := by
  show _ ∧ _ ↔ _
  rw [mem_candidates, Int.lt_toNat]

/-- A mark on a piece that the peer does not have changes nothing for it. -/
theorem useful_markPending (tr : Tracker) (h : i ∉ peerPieces) :
    useful (tr.markPending i) peerPieces = useful tr peerPieces := by
  ext j
  constructor
  · rintro ⟨hpeer, hlt, hgot, hpending⟩
    exact ⟨hpeer, hlt, hgot, fun hmem => hpending (Finset.mem_insert_of_mem hmem)⟩
  · rintro ⟨hpeer, hlt, hgot, hpending⟩
    refine ⟨hpeer, hlt, hgot, fun hmem => ?_⟩
    rcases Finset.mem_insert.mp hmem with rfl | hmem
    · exact h hpeer
    · exact hpending hmem

def Rarest (tr : Tracker) (peerPieces : Finset ℕ) : Option ℕ → Prop
  | some i => LeastBy tr.rarity (useful tr peerPieces) i
  | none => useful tr peerPieces = ∅

theorem rarest_selected (h : tr.selectPiece = some i) (hpeer : i ∈ peerPieces) :
    Rarest tr peerPieces (some i) := by
  have hleast := selectPiece_leastBy h
  refine hleast.of_subset (fun j hj => (mem_useful.mp hj).2) ?_
  exact mem_useful.mpr ⟨hpeer, hleast.mem⟩

theorem rarest_none (h : tr.selectPiece = none) : Rarest tr peerPieces none := by
  refine Set.eq_empty_iff_forall_notMem.mpr fun j hj => ?_
  have hmem := (mem_useful.mp hj).2
  rw [selectPiece_eq_none.mp h] at hmem
  cases hmem

theorem Rarest.of_markPending (h : Rarest (tr.markPending i) peerPieces found)
    (hpeer : i ∉ peerPieces) : Rarest tr peerPieces found := by
  have hsame := useful_markPending tr hpeer
  cases found with
  | none => exact hsame.symm.trans h
  | some j =>
    have hleast : LeastBy tr.rarity (useful (tr.markPending i) peerPieces) j := h
    rw [hsame] at hleast
    exact hleast

theorem Rarest.of_markFailed (h : Rarest (tr.markFailed i) peerPieces found)
    (hpending : i ∉ tr.pending) : Rarest tr peerPieces found := by
  have hsame : useful (tr.markFailed i) peerPieces = useful tr peerPieces := by
    simp only [useful, Tracker.markFailed_pieceCount, Tracker.markFailed_got,
      Tracker.markFailed_pending, Finset.erase_eq_of_notMem hpending]
  cases found with
  | none => exact hsame.symm.trans h
  | some j =>
    have hleast : LeastBy tr.rarity (useful (tr.markFailed i) peerPieces) j := h
    rw [hsame] at hleast
    exact hleast

theorem searchLoop_rarest {fuel : ℕ} (h : tr.candidates.length < fuel) :
    Rarest tr peerPieces (searchLoop peerPieces fuel tr tr.selectPiece).2 := by
  refine searchLoop_induction (P := fun tr r => Rarest tr peerPieces r.2) h ?_ ?_ ?_ ?_ ?_
  · exact rarest_none
  · exact rarest_selected
  · exact fun _ hi hnext => Rarest.of_markPending (rarest_none hnext) hi
  · exact fun _ hi hnext hj => Rarest.of_markPending (rarest_selected hnext hj) hi
  · intro tr i j r _ hi hnext _ h
    obtain ⟨-, -, hpend⟩ := Tracker.selectPiece_spec hnext
    exact (h.of_markFailed hpend).of_markPending hi

theorem search_rarest (peerPieces : Finset ℕ) (tr : Tracker) :
    Rarest tr peerPieces (search peerPieces tr).2 := searchLoop_rarest (Nat.lt_succ_self _)

section
variable {hint : ℕ} {eg eg' : EndgameState} {t : Task} {spec : PieceSpec}

theorem buildSpecsLoop_index {pieceLength totalLength : ℤ} {raw : Bytes} {n i k : ℕ} {offset : ℤ}
    (h : (buildSpecsLoop pieceLength totalLength raw n i offset)[k]? = some spec) :
    spec.index = i + k := by
  induction n generalizing i k offset with
  | zero => cases h
  | succ n ih =>
    cases k with
    | zero =>
      obtain rfl := Option.some.inj h
      rw [Nat.cast_zero, add_zero]
    | succ k =>
      rw [ih h]
      push_cast
      ring

theorem startPiece_rarest (hspecs : tr.specs.length = tr.pieceCount.toNat)
    (huseful : (useful tr t.peerPieces).Nonempty) :
    ∃ i spec tr', LeastBy tr.rarity (useful tr t.peerPieces) i ∧
      startPiece hint tr eg t =
        (tr', if t.endgameGiven then eg.recordRequest i t.addr else eg, .piece i spec) ∧
      i ∈ tr'.pending := by
  have hmarks := (search_spec t.peerPieces tr).marks
  have hrarest := search_rarest t.peerPieces tr
  unfold startPiece
  cases hs : search t.peerPieces tr with
  | mk tr₁ found =>
    rw [hs] at hmarks hrarest
    cases found with
    | none =>
      obtain ⟨j, hj⟩ := huseful
      have hempty : useful tr t.peerPieces = ∅ := hrarest
      rw [hempty] at hj
      cases hj
    | some i =>
      have hleast : LeastBy tr.rarity (useful tr t.peerPieces) i := hrarest
      have hlt : i < tr.specs.length := by
        rw [hspecs]
        exact (mem_candidates.mp (mem_useful.mp hleast.mem).2).1
      have hspec : (tr₁.markPending i).specs[i]? = some tr.specs[i] := by
        rw [Tracker.markPending_specs, hmarks.specs]
        exact List.getElem?_eq_getElem hlt
      refine ⟨i, tr.specs[i], tr₁.markPending i, hleast, ?_, Finset.mem_insert_self _ _⟩
      simp only [hspec]

theorem nextPiece_takes {s s' : Session} {t' : Task}
    (hstart : startPiece hint s.tracker s.endgame t = (tr', eg', .piece i spec))
    (h : nextPiece hint s t = (s', t')) :
    t'.currentPiece = some i ∧ t'.pieceSpec = some spec ∧ t'.pieceBlocks = [] := by
  unfold nextPiece at h
  rw [hstart] at h
  obtain ⟨-, rfl⟩ := Prod.mk.inj h
  unfold requestFrom
  split
  · exact ⟨rfl, rfl, rfl⟩
  · exact ⟨rfl, rfl, rfl⟩

end

section
variable {sha1 : Bytes → Bytes} {kind : StorageKind} {storage : Bytes} {s s' : Session}
  {st st' : Starter} {c : Config Session Proc}

theorem afterCheck_endgame (s : Session) (st : Starter) :
    (afterCheck s st).1.endgame = s.endgame := by
  unfold afterCheck
  split
  · rfl
  · rfl

theorem scanFrom_endgame (s : Session) (st : Starter) (todo : List ℕ) :
    (scanFrom s st todo).1.endgame = s.endgame := by
  induction todo with
  | nil => exact afterCheck_endgame _ st
  | cons idx todo ih =>
    unfold scanFrom
    split
    · exact ih
    · split
      · rfl
      · rfl

theorem checkResume_endgame (s : Session) (st : Starter) :
    (checkResume s st).1.endgame = s.endgame := by
  unfold checkResume
  simp only
  generalize (if st.haveFromResume ≠ ∅ then st.haveFromResume
    else Finset.range s.tracker.pieceCount.toNat) = pieces
  split
  · exact afterCheck_endgame s st
  · split
    · exact afterCheck_endgame _ st
    · rfl

theorem startStep_endgame {b : StartAction} (h : startStep sha1 b s st = some (s', st')) :
    s'.endgame = s.endgame := by
  cases startTurn_of_step h with
  | ends hs => rw [hs]
  | checks _ heq =>
    have hsame := checkResume_endgame s st
    rw [heq] at hsame
    exact hsame
  | scans todo _ heq =>
    have hsame := scanFrom_endgame s st todo
    rw [heq] at hsame
    exact hsame
  | @marks idx spec data todo _ _ heq =>
    have hsame := scanFrom_endgame { s with tracker := s.tracker.markHave idx } st todo
    rw [heq] at hsame
    exact hsame
  | fetches _ _ hs => rw [hs]

def Written (s : Session) : Proc → Prop
  | .peer t => ∀ index spec, stage t.point = .written index spec → index ∈ s.tracker.got
  | .starter _ => True

theorem start_covers {b : StartAction} (hcovers : Covers s.tracker s.endgame)
    (hread : ReadOk s.tracker.specs st) (h : startStep sha1 b s st = some (s', st')) :
    Covers s'.tracker s'.endgame := by
  obtain ⟨s₁, hmark, hsame, -⟩ := start_effect hread h
  rw [startStep_endgame h]
  have hcovers₁ : Covers s₁.tracker s.endgame := by
    rcases hmark with rfl | ⟨idx, _, -, rfl⟩
    · exact hcovers
    · exact hcovers.markHave idx
  exact hcovers₁.of_marks hsame.marks rfl rfl

theorem session_covers (hnone : tr.got = ∅)
    (h : Reach (program sha1 kind) Spawning ⟨newSession tr storage, []⟩ c) :
    Covers c.shared.tracker c.shared.endgame := by
  have hall : (SessionOk tr c.shared ∧ Covers c.shared.tracker c.shared.endgame) ∧
      ∀ p ∈ c.procs, ProcKnows sha1 tr.specs p ∧ Written c.shared p := by
    refine h.rely_guarantee
      (G := fun s => SessionOk tr s ∧ Covers s.tracker s.endgame)
      (L := fun s p => ProcKnows sha1 tr.specs p ∧ Written s p)
      (R := fun s s' => s.tracker.got ⊆ s'.tracker.got) ⟨⟨rfl, rfl, ?_⟩, ?_⟩
      (fun p hp => by cases hp) ?_ ?_ ?_
    · intro i hi
      have hi : i ∈ tr.got := hi
      rw [hnone] at hi
      cases hi
    · constructor
      · intro i hi
        cases hi
      · intro hon
        cases hon
    · intro c p _ hfresh
      refine ⟨procKnows_of_fresh sha1 tr.specs hfresh, ?_⟩
      cases p with
      | peer t =>
        obtain ⟨addr, given, rates, rfl⟩ := hfresh
        intro index spec hstage
        cases hstage
      | starter st => exact trivial
    · rintro c i a p s p' _ _ ⟨hgood, hcovers⟩ ⟨hknows, hwritten⟩ hs
      obtain ⟨hgood', hknows'⟩ := hgood.step hknows hs
      cases p with
      | peer t =>
        obtain ⟨b, t', -, rfl, hstep⟩ := program_peer hs
        have hturn := turn_of_step hstep
        refine ⟨⟨hgood', turn_covers hturn hcovers hwritten⟩, ⟨hknows', ?_⟩, hturn.got_subset⟩
        intro index spec hstage
        rcases hturn.written hstage with hold | hgot
        · exact hturn.got_subset (hwritten index spec hold)
        · exact hgot
      | starter st =>
        obtain ⟨b, st', -, rfl, hstep⟩ := program_starter hs
        have hread : ReadOk c.shared.tracker.specs st := by
          rw [hgood.specs]
          exact hknows
        exact ⟨⟨hgood', start_covers hcovers hread hstep⟩, ⟨hknows', trivial⟩,
          start_got_subset hstep⟩
    · rintro s s' q _ hsub ⟨hknows, hwritten⟩
      refine ⟨hknows, ?_⟩
      cases q with
      | peer t => exact fun index spec hstage => hsub (hwritten index spec hstage)
      | starter st => exact trivial
  exact hall.1.2

end

def asking (pieces : Finset ℕ) : Task :=
  { newTask ⟨[127, 0, 0, 1], 6882⟩ true none with peerPieces := pieces }

end PieceChoice
