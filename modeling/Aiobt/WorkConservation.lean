import Aiobt.PeerRuns
import Aiobt.EndgameCoverage

/-! # Peers are put to work

A peer that unchokes us and has a piece that nobody fetches is fetching one itself. A step may leave
it idle in three ways: it announces the piece too late, the piece is given up elsewhere, or another
task completes the piece that it fetches. -/
namespace WorkConservation

open ByteStrings PieceTracker PeerMessages PieceEngine SessionTasks PieceSearch EngineTurns
open InterleavedProcesses PeerRuns EndgameCoverage

variable {sha1 : Bytes → Bytes} {kind : StorageKind} {a : Action} {hint : ℕ} {s s' s₀ s₁ : Session}
  {t t' t₁ : Task} {c : Config Session Task} {procs : List Task} {n i : ℕ} {tr tr' : Tracker}
  {eg eg' : EndgameState}

theorem requestFrom_peerChoking (t : Task) (spec : PieceSpec) (offset : ℕ) :
    (requestFrom t spec offset).peerChoking = t.peerChoking := by
  unfold requestFrom
  split
  · rfl
  · rfl

/-- A task that may start a piece gets one that is missing, or its peer has none. -/
theorem nextPiece_spec (hcovers : Covers s.tracker s.endgame)
    (hspecs : s.tracker.specs.length = s.tracker.pieceCount.toNat)
    (hinside : ∀ i ∈ s.tracker.got, i < s.tracker.pieceCount.toNat) (hgiven : t.endgameGiven = true)
    (h : nextPiece hint s t = (s', t')) :
    stage t'.point = .running ∧ t'.peerPieces = t.peerPieces ∧
      t'.peerChoking = t.peerChoking ∧
      ((∃ i, t'.currentPiece = some i ∧ i ∉ s.tracker.got) ∨
        ∀ i ∈ t.peerPieces, i < s.tracker.pieceCount.toNat → i ∈ s.tracker.got) := by
  obtain ⟨tr, eg, started, hstart, hcases⟩ := nextPiece_cases h
  have hstarted : (∃ i spec, started = .piece i spec) ∨
      started = .nothing ∧ ∀ i ∈ t.peerPieces, i < s.tracker.pieceCount.toNat → i ∈ s.tracker.got := by
    have hpiece := startPiece_started hint hcovers hspecs hinside hgiven
    rw [hstart] at hpiece
    exact hpiece
  rcases hcases with ⟨rfl, rfl, rfl⟩ | ⟨idx, spec, rfl, rfl, rfl⟩ | ⟨rfl, -, -⟩
  · refine ⟨rfl, rfl, rfl, Or.inr ?_⟩
    rcases hstarted with ⟨_, _, heq⟩ | ⟨-, hall⟩
    · cases heq
    · exact hall
  · obtain ⟨ht, hpoint⟩ := samePieces_requestFrom (t.takePiece idx spec) spec 0
    exact ⟨hpoint, ht.peerPieces, requestFrom_peerChoking _ spec 0,
      Or.inl ⟨idx, ht.currentPiece, (startPiece_piece hstart).2.1⟩⟩
  · rcases hstarted with ⟨_, _, heq⟩ | ⟨heq, -⟩
    · cases heq
    · cases heq

theorem nextPiece_of_search (hspecs : s.tracker.specs.length = s.tracker.pieceCount.toNat)
    (hsearch : (search t.peerPieces s.tracker).2 = some i) (h : nextPiece hint s t = (s', t')) :
    Owns i t' := by
  have hmarks := (search_spec t.peerPieces s.tracker).marks
  obtain ⟨-, hlt, -⟩ := search_some hsearch
  obtain ⟨tr, eg, started, hstart, hcases⟩ := nextPiece_cases h
  unfold startPiece at hstart
  cases hs : search t.peerPieces s.tracker with
  | mk tr₁ found =>
    rw [hs] at hstart hmarks hsearch
    obtain rfl : found = some i := hsearch
    have hspec : (tr₁.markPending i).specs[i]? = some s.tracker.specs[i] := by
      rw [Tracker.markPending_specs, hmarks.specs]
      exact List.getElem?_eq_getElem (hspecs ▸ hlt)
    simp only [hspec] at hstart
    obtain ⟨-, hrest⟩ := Prod.mk.inj hstart
    obtain ⟨-, rfl⟩ := Prod.mk.inj hrest
    rcases hcases with ⟨hno, -, -⟩ | ⟨idx, spec, heq, -, rfl⟩ | ⟨hno, -, -⟩
    · cases hno
    · obtain ⟨rfl, rfl⟩ := Started.piece.inj heq
      obtain ⟨ht, hpoint⟩ := samePieces_requestFrom (t.takePiece i s.tracker.specs[i]) s.tracker.specs[i] 0
      exact ⟨.of_running hpoint, ht.currentPiece⟩
    · cases hno

/-- The task is neither before its first message nor finishing a piece. -/
def running (t : Task) : Bool :=
  match stage t.point with
  | .running => true
  | _ => false

def Busy (s : Session) (t : Task) : Prop := ∃ i ∈ t.currentPiece, i ∉ s.tracker.got

/-- The peer unchokes us, and nothing that is missing is fetched from it. -/
def Idles (s : Session) (t : Task) : Prop := running t = true ∧ t.peerChoking = false ∧ ¬ Busy s t

def Free (s : Session) (procs : List Task) (i : ℕ) : Prop :=
  i < s.tracker.pieceCount.toNat ∧ i ∉ s.tracker.got ∧ ∀ u ∈ procs, ¬ Owns i u

instance (s : Session) (t : Task) : Decidable (Busy s t) := inferInstanceAs (Decidable (∃ i ∈ _, _))

instance (s : Session) (t : Task) : Decidable (Idles s t) := inferInstanceAs (Decidable (_ ∧ _))

instance (s : Session) (procs : List Task) (i : ℕ) : Decidable (Free s procs i) :=
  inferInstanceAs (Decidable (_ ∧ _))

def announces (s : Session) : Action → Finset ℕ
  | .receives (.bitfield data) _ => bitfieldToSet data s.tracker.pieceCount
  | .receives (.havePiece index) _ => {index}
  | _ => ∅

/-- The last block of a piece of negative length comes, which cannot be assembled. -/
def failsAssembly (t : Task) : Action → Bool
  | .receives (.piece index begin block) _ =>
    let blocks := setBlock t.pieceBlocks begin block
    decide (t.point = .receive ∧ t.currentPiece = some index) &&
      t.pieceSpec.any fun spec => pieceComplete blocks spec.length &&
        (assemblePiece blocks spec.length).isNone
  | _ => false

/-- A task whose piece has another hash comes upon the same piece again. -/
def Retakes (s : Session) (t : Task) (index : ℕ) : Prop :=
  ¬ s.tracker.isComplete ∧ t.peerChoking = false ∧
    (search t.peerPieces (s.tracker.markFailed index)).2 = some index

instance (s : Session) (t : Task) (index : ℕ) : Decidable (Retakes s t index) :=
  inferInstanceAs (Decidable (_ ∧ _))

def givesUp (sha1 : Bytes → Bytes) (kind : StorageKind) (s : Session) (t : Task) (a : Action) :
    Option ℕ :=
  match a with
  | .raises => t.currentPiece
  | .receives .choke _ => t.currentPiece
  | .receives (.piece index _ _) _ =>
    if (failsHash sha1 t a = true ∧ ¬ Retakes s t index) ∨ failsAssembly t a = true then t.currentPiece
    else none
  | .returns _ =>
    match t.point with
    | .read _ _ length _ data => if kind = .blob ∧ data.length ≠ length then t.currentPiece else none
    | _ => none
  | _ => none

/-- A task takes part in the endgame; what is announced to it while it idles is not free; when it
writes a piece, no other task at that piece could fetch a free one; and a piece that it gives up is
fetched by another, or idle peers do not have it. -/
structure Gainful (sha1 : Bytes → Bytes) (kind : StorageKind) (s : Session) (procs : List Task)
    (n : ℕ) (t : Task) (a : Action) : Prop where
  given : t.endgameGiven = true
  announced : Idles s t → ∀ i ∈ announces s a, ¬ Free s procs i
  written : ∀ p ∈ writtenPiece t a, ∀ u ∈ procs.eraseIdx n, running u = true → u.peerChoking = false →
    u.currentPiece = some p → ∀ i ∈ u.peerPieces, i ≠ p → ¬ Free s procs i
  givenUp : ∀ p ∈ givesUp sha1 kind s t a, p < s.tracker.pieceCount.toNat → p ∉ s.tracker.got →
    (∃ u ∈ procs.eraseIdx n, Owns p u) ∨ ∀ u ∈ procs.eraseIdx n, Idles s u → p ∉ u.peerPieces

instance (sha1 : Bytes → Bytes) (kind : StorageKind) (s : Session) (procs : List Task) (n : ℕ) (t : Task)
    (a : Action) : Decidable (Gainful sha1 kind s procs n t a) :=
  decidable_of_iff
    (t.endgameGiven = true ∧ (Idles s t → ∀ i ∈ announces s a, ¬ Free s procs i) ∧
      (∀ p ∈ writtenPiece t a, ∀ u ∈ procs.eraseIdx n, running u = true → u.peerChoking = false →
        u.currentPiece = some p → ∀ i ∈ u.peerPieces, i ≠ p → ¬ Free s procs i) ∧
      ∀ p ∈ givesUp sha1 kind s t a, p < s.tracker.pieceCount.toNat → p ∉ s.tracker.got →
        (∃ u ∈ procs.eraseIdx n, Owns p u) ∨ ∀ u ∈ procs.eraseIdx n, Idles s u → p ∉ u.peerPieces)
    ⟨fun ⟨hgiven, hannounced, hwritten, hgivenUp⟩ => ⟨hgiven, hannounced, hwritten, hgivenUp⟩,
      fun ⟨hgiven, hannounced, hwritten, hgivenUp⟩ => ⟨hgiven, hannounced, hwritten, hgivenUp⟩⟩

theorem running_eq : running t = true ↔ stage t.point = .running := by
  unfold running
  split
  · next h => simp [h]
  · next h => simpa using h

inductive Change (sha1 : Bytes → Bytes) (kind : StorageKind) (a : Action) (s : Session) (t : Task)
    (s' : Session) (t' : Task) : Prop
  | keeps : s'.tracker.got = s.tracker.got →
      (∀ i, i ∉ s.tracker.got → Owns i t → Owns i t' ∨ givesUp sha1 kind s t a = some i) →
      Change sha1 kind a s t s' t'
  | writes (p : ℕ) : writtenPiece t a = some p → s'.tracker.got = insert p s.tracker.got →
      (∀ i, Owns i t → Owns i t') → Change sha1 kind a s t s' t'

theorem owns_of_current (hlive : Live t') (hcur : t'.currentPiece = t.currentPiece) (h : Owns i t) :
    Owns i t' := ⟨hlive, hcur.trans h.2⟩

theorem turn_change (h : Turn sha1 kind a s t s' t') (htask : TaskOk sha1 s.tracker.specs t)
    (hspecs : s.tracker.specs.length = s.tracker.pieceCount.toNat)
    (hinside : ∀ i ∈ s.tracker.got, i < s.tracker.pieceCount.toNat)
    (hwritten : ∀ index spec, stage t.point = .written index spec → index ∈ s.tracker.got) :
    Change sha1 kind a s t s' t' := by
  cases h with
  | keeps hs ht hstage =>
    refine .keeps (by rw [hs.tracker]) fun i _ howns => Or.inl (owns_of_current ?_ ht.currentPiece howns)
    rw [Live, hstage]
    exact howns.1
  | begins => exact .keeps rfl fun i _ howns => Or.inl ⟨.of_running rfl, howns.2⟩
  | cancelled _ hp =>
    obtain ⟨hnone, -⟩ := htask.fresh (by rw [hp]; rfl)
    exact .keeps rfl fun i _ howns => absurd howns (not_owns_of_none hnone)
  | bitfield _ _ hs ht hstage =>
    exact .keeps (by rw [hs.tracker]; rfl) fun i _ howns =>
      Or.inl (owns_of_current (.of_running hstage) ht.currentPiece howns)
  | havePiece _ _ hs ht hstage =>
    exact .keeps (by rw [hs.tracker]; rfl) fun i _ howns =>
      Or.inl (owns_of_current (.of_running hstage) ht.currentPiece howns)
  | choked ha _ hcur _ _ _ =>
    refine .keeps rfl fun i _ howns => Or.inr ?_
    rw [ha, givesUp]
    exact howns.2
  | unchoked _ _ _ ht hstage =>
    exact .keeps rfl fun i _ howns => Or.inl (owns_of_current (.of_running hstage) ht.currentPiece howns)
  | starts _ _ _ hnone _ _ _ hnext =>
    exact .keeps (nextPiece_undisturbed hnext).marks.got fun i _ howns =>
      absurd howns (not_owns_of_none hnone)
  | verifies _ _ _ _ _ ht hstage =>
    refine .keeps rfl fun i _ howns => Or.inl (owns_of_current ?_ ht.currentPiece howns)
    rw [Live, hstage]
    intro hgone
    cases hgone
  | @fails index _ _ _ _ _ t₁ _ _ ha hp hcur hspec hfull hassembled hverify ht _ hfinish =>
    refine .keeps (finishPiece_undisturbed hfinish).marks.got fun i _ howns => ?_
    obtain rfl : i = index := Option.some.inj (howns.2.symm.trans hcur)
    by_cases hretakes : Retakes s t i
    · obtain ⟨hincomplete, hchoking, hsearch⟩ := hretakes
      rw [← ht.peerPieces] at hsearch
      rcases finishPiece_cases hfinish with ⟨hcomplete, -⟩ | ⟨-, hchoked, -⟩ | ⟨-, -, hnext⟩
      · exact absurd hcomplete hincomplete
      · rcases ht.peerChoking with hsame | hnone
        · rw [hsame, hchoking] at hchoked
          cases hchoked
        · rw [hcur] at hnone
          cases hnone.2
      · have hspecs₁ : (s.tracker.markFailed i).specs.length =
            (s.tracker.markFailed i).pieceCount.toNat := hspecs
        have hsearch₁ : (search t₁.dropPiece.peerPieces (s.tracker.markFailed i)).2 = some i := hsearch
        exact Or.inl (nextPiece_of_search (by exact hspecs₁) (by exact hsearch₁) hnext)
    · refine Or.inr ?_
      simp only [ha, givesUp]
      rw [if_pos (Or.inl ⟨failsHash_receives hp hcur hspec hfull hassembled hverify, hretakes⟩)]
      exact howns.2
  | stores => exact .keeps rfl fun i _ howns => Or.inl howns
  | @writes index _ _ _ ha hp =>
    refine .writes index (by simp only [ha, writtenPiece, hp]) rfl fun i howns => ⟨?_, howns.2⟩
    intro hgone
    cases hgone
  | withdraws _ _ ht hstage =>
    refine .keeps rfl fun i _ howns => Or.inl (owns_of_current ?_ ht.currentPiece howns)
    rw [Live, hstage]
    intro hgone
    cases hgone
  | @finishes index spec _ s₁ _ _ hstage _ htr _ _ _ _ hfinish =>
    refine .keeps (by rw [(finishPiece_undisturbed hfinish).marks.got, htr]) fun i hmissing howns => ?_
    have hcur := (htask.written index spec hstage).1
    obtain rfl : i = index := Option.some.inj (howns.2.symm.trans hcur)
    exact absurd (hwritten i spec hstage) hmissing
  | leaves hwhy =>
    refine .keeps (cleanup_undisturbed s _).marks.got fun i _ howns => ?_
    cases hwhy with
    | raises ha =>
      rw [ha, givesUp]
      exact Or.inr howns.2
    | noBitfield _ hp =>
      exact absurd howns (not_owns_of_none (htask.fresh (by rw [hp]; rfl)).1)
    | negative ha hp hcur hspec hfull hnone =>
      refine Or.inr ?_
      have hfails : failsAssembly t a = true := by
        simp [failsAssembly, ha, hp, hcur, hspec, hfull, hnone]
      simp only [ha, givesUp] at hfails ⊢
      rw [if_pos (Or.inr hfails)]
      exact howns.2
    | @noSpec index begin length hint ha hp hgot hspec =>
      have hlt := hinside index hgot
      rw [List.getElem?_eq_getElem (hspecs ▸ hlt)] at hspec
      cases hspec
    | shortRead ha hkind hp hshort =>
      refine Or.inr ?_
      simp only [ha, givesUp, hp]
      rw [if_pos ⟨hkind, hshort⟩]
      exact howns.2

/-- The peer chokes us, a missing piece is fetched from it, or it has none. -/
def Supplied (s : Session) (t : Task) : Prop :=
  t.peerChoking = true ∨ Busy s t ∨
    ∀ i ∈ t.peerPieces, i < s.tracker.pieceCount.toNat → i ∈ s.tracker.got

theorem Supplied.of_complete (hinside : ∀ i ∈ s.tracker.got, i < s.tracker.pieceCount.toNat)
    (hcomplete : s.tracker.isComplete) : Supplied s t :=
  Or.inr (Or.inr fun _ _ hi => got_of_complete hinside hcomplete hi)

theorem Supplied.of_undisturbed (h : Supplied s t) (hs : Undisturbed s s') : Supplied s' t := by
  rw [Supplied, Busy, hs.marks.got, hs.marks.pieceCount]
  exact h

structure Starts (s' : Session) (t t' : Task) : Prop where
  covers : Covers s'.tracker s'.endgame
  running : stage t'.point = .running
  choking : t'.peerChoking = true → t'.currentPiece = none
  supplied : Supplied s' t'

theorem nextPiece_starts (hcovers : Covers s.tracker s.endgame)
    (hspecs : s.tracker.specs.length = s.tracker.pieceCount.toNat)
    (hinside : ∀ i ∈ s.tracker.got, i < s.tracker.pieceCount.toNat) (hgiven : t.endgameGiven = true)
    (hchoking : t.peerChoking = false) (h : nextPiece hint s t = (s', t')) : Starts s' t t' := by
  obtain ⟨hstage, hpieces, hsame, hstarted⟩ := nextPiece_spec hcovers hspecs hinside hgiven h
  refine ⟨nextPiece_covers hcovers h, hstage, fun hchoked => ?_, ?_⟩
  · rw [hsame, hchoking] at hchoked
    cases hchoked
  · refine Supplied.of_undisturbed (Or.inr ?_) (nextPiece_undisturbed h)
    rcases hstarted with hbusy | hnone
    · exact Or.inl hbusy
    · refine Or.inr ?_
      rw [hpieces]
      exact hnone

theorem finishPiece_starts (hcovers : Covers s.tracker s.endgame)
    (hspecs : s.tracker.specs.length = s.tracker.pieceCount.toNat)
    (hinside : ∀ i ∈ s.tracker.got, i < s.tracker.pieceCount.toNat) (hgiven : t.endgameGiven = true)
    (h : finishPiece hint s t = (s', t')) : Starts s' t t' := by
  rcases finishPiece_cases h with ⟨hcomplete, rfl, rfl⟩ | ⟨-, hchoking, rfl, rfl⟩ |
    ⟨-, hchoking, hnext⟩
  · exact ⟨hcovers, rfl, fun _ => rfl, .of_complete hinside hcomplete⟩
  · exact ⟨hcovers, rfl, fun _ => rfl, Or.inl hchoking⟩
  · have hdropped := nextPiece_starts hcovers hspecs hinside
      (show t.dropPiece.endgameGiven = true from hgiven)
      (show t.dropPiece.peerChoking = false from hchoking) hnext
    exact ⟨hdropped.covers, hdropped.running, hdropped.choking, hdropped.supplied⟩

structure Working (s : Session) (procs : List Task) : Prop where
  specs : s.tracker.specs.length = s.tracker.pieceCount.toNat
  inside : ∀ i ∈ s.tracker.got, i < s.tracker.pieceCount.toNat
  covers : Covers s.tracker s.endgame
  written : ∀ t ∈ procs, ∀ index spec, stage t.point = .written index spec → index ∈ s.tracker.got
  choking : ∀ t ∈ procs, Live t → t.peerChoking = true → t.currentPiece = none
  works : ∀ t ∈ procs, Idles s t → ∀ i ∈ t.peerPieces, ¬ Free s procs i

theorem not_idles (hstage : stage t.point ≠ .running) : ¬ Idles s t := fun h =>
  hstage (running_eq.mp h.1)

/-- The task that moves starts a piece; or the endgame stays in order, the task is at no piece when
it is choked, and it is supplied, or idles as before with what is announced to it. -/
structure Onward (s : Session) (t : Task) (a : Action) (s' : Session) (t' : Task) : Prop where
  covers : Covers s'.tracker s'.endgame
  choking : Live t' → t'.peerChoking = true → t'.currentPiece = none
  idles : (Idles s' t' → Idles s t ∧ ∀ i ∈ t'.peerPieces, i ∈ t.peerPieces ∨ i ∈ announces s a) ∨
    Supplied s' t'

theorem Starts.moves (h : Starts s' t₁ t') : Onward s t a s' t' :=
  ⟨h.covers, fun _ => h.choking, Or.inr h.supplied⟩

theorem choking_of_same (hchoking : t.peerChoking = true → t.currentPiece = none)
    (hcur : t'.currentPiece = t.currentPiece)
    (hsame : t'.peerChoking = t.peerChoking ∨ t'.peerChoking = true ∧ t.currentPiece = none) :
    t'.peerChoking = true → t'.currentPiece = none := by
  intro hchoked
  rw [hcur]
  rcases hsame with hsame | hnone
  · exact hchoking (hsame.symm.trans hchoked)
  · exact hnone.2

theorem idles_of_same (hs : s'.tracker.got = s.tracker.got) (hcur : t'.currentPiece = t.currentPiece)
    (hchoking : t'.peerChoking = false → t.peerChoking = false) (hrunning : running t = true)
    (h : Idles s' t') : Idles s t := by
  refine ⟨hrunning, hchoking h.2.1, fun hbusy => h.2.2 ?_⟩
  rw [Busy, hcur, hs]
  exact hbusy

theorem unchoked_of_same
    (hsame : t'.peerChoking = t.peerChoking ∨ t'.peerChoking = true ∧ t.currentPiece = none)
    (h : t'.peerChoking = false) : t.peerChoking = false := by
  rcases hsame with hsame | hchoked
  · exact hsame.symm.trans h
  · rw [hchoked.1] at h
    cases h

theorem turn_moves (h : Turn sha1 kind a s t s' t') (htask : TaskOk sha1 s.tracker.specs t)
    (hw : Working s procs) (ht : t ∈ procs) (hgiven : t.endgameGiven = true) :
    Onward s t a s' t' := by
  have hreceive : t.point = .receive → running t = true := fun hp => by
    rw [running_eq, hp]
    rfl
  have hlive : t.point = .receive → Live t := fun hp => .of_running (running_eq.mp (hreceive hp))
  have hfailed : ∀ index, Covers (s.tracker.markFailed index) s.endgame := fun index =>
    hw.covers.of_marks (Marks.markFailed _ index) rfl rfl
  have hcovers := turn_covers h hw.covers (hw.written t ht)
  cases h with
  | keeps hs hsame hstage =>
    refine ⟨hcovers, fun hl => ?_, Or.inl fun hidle => ?_⟩
    · rw [Live, hstage] at hl
      exact choking_of_same (hw.choking t ht hl) hsame.currentPiece hsame.peerChoking
    · have hrunning : running t = true := by
        rw [running_eq, ← hstage]
        exact running_eq.mp hidle.1
      rw [hsame.peerPieces]
      exact ⟨idles_of_same (by rw [hs.tracker]) hsame.currentPiece (unchoked_of_same hsame.peerChoking) hrunning
        hidle, fun i hi => Or.inl hi⟩
  | begins _ hp =>
    refine ⟨hcovers, fun _ _ => ?_, Or.inr (Or.inl rfl)⟩
    exact (htask.fresh (by rw [hp]; rfl)).1
  | cancelled =>
    refine ⟨hcovers, fun hl => absurd rfl hl, Or.inl fun hidle => absurd hidle (not_idles ?_)⟩
    intro hrunning
    cases hrunning
  | bitfield ha hp hs hsame hstage =>
    refine ⟨hcovers, fun _ => ?_, Or.inl fun hidle => ?_⟩
    · exact choking_of_same (hw.choking t ht (hlive hp)) hsame.currentPiece hsame.peerChoking
    · refine ⟨idles_of_same (by rw [hs.tracker]; rfl) hsame.currentPiece (unchoked_of_same hsame.peerChoking)
        (hreceive hp) hidle, fun i hi => Or.inr ?_⟩
      rw [hsame.peerPieces] at hi
      rw [ha]
      exact hi
  | @havePiece index _ _ _ ha hp hs hsame hstage =>
    refine ⟨hcovers, fun _ => ?_, Or.inl fun hidle => ?_⟩
    · exact choking_of_same (hw.choking t ht (hlive hp)) hsame.currentPiece hsame.peerChoking
    · refine ⟨idles_of_same (by rw [hs.tracker]; rfl) hsame.currentPiece (unchoked_of_same hsame.peerChoking)
        (hreceive hp) hidle, fun i hi => ?_⟩
      rw [hsame.peerPieces] at hi
      rw [ha]
      rcases Finset.mem_insert.mp hi with rfl | hi
      · exact Or.inr (Finset.mem_singleton_self _)
      · exact Or.inl hi
  | choked _ _ _ hsame hchoked _ =>
    exact ⟨hcovers, fun _ _ => hsame.currentPiece, Or.inr (Or.inl hchoked)⟩
  | unchoked _ hp hwhy hsame hstage =>
    refine ⟨hcovers, fun _ hchoked => ?_, ?_⟩
    · rw [hsame.currentPiece]
      rcases hsame.peerChoking with hfree | hnone
      · rw [hfree] at hchoked
        cases hchoked
      · exact hnone.2
    · rcases hwhy with hcomplete | hcur
      · exact Or.inr (.of_complete hw.inside hcomplete)
      · refine Or.inl fun hidle => ⟨idles_of_same rfl hsame.currentPiece (fun _ => ?_) (hreceive hp) hidle,
          fun i hi => Or.inl ?_⟩
        · by_contra hchoked
          exact hcur (hw.choking t ht (hlive hp) (by simpa using hchoked))
        · rw [hsame.peerPieces] at hi
          exact hi
  | starts _ _ _ _ hsame hchoking _ hnext =>
    exact (nextPiece_starts hw.covers hw.specs hw.inside (hsame.endgameGiven.trans hgiven) hchoking
      hnext).moves
  | verifies _ hp hcur _ _ hsame hstage =>
    refine ⟨hcovers, fun _ => choking_of_same (hw.choking t ht (hlive hp)) hsame.currentPiece hsame.peerChoking,
      Or.inl fun hidle => absurd hidle (not_idles ?_)⟩
    rw [hstage]
    intro hgone
    cases hgone
  | @fails index _ _ _ _ _ t₁ _ _ _ _ _ _ _ _ _ hsame _ hfinish =>
    have hspecs : (s.tracker.markFailed index).specs.length =
        (s.tracker.markFailed index).pieceCount.toNat := hw.specs
    have hinside : ∀ i ∈ (s.tracker.markFailed index).got,
        i < (s.tracker.markFailed index).pieceCount.toNat := hw.inside
    exact (finishPiece_starts (by exact hfailed index) (by exact hspecs) (by exact hinside)
      (hsame.endgameGiven.trans hgiven) hfinish).moves
  | stores _ hp _ =>
    refine ⟨hcovers, hw.choking t ht, Or.inl fun hidle => absurd hidle (not_idles ?_)⟩
    rw [hp]
    intro hgone
    cases hgone
  | @writes index _ _ _ _ hp =>
    have hlives : Live t := by
      rw [Live, hp]
      intro hgone
      cases hgone
    refine ⟨hcovers, fun _ => hw.choking t ht hlives, Or.inl fun hidle => absurd hidle (not_idles ?_)⟩
    intro hrunning
    cases hrunning
  | @withdraws index spec _ _ _ hp hsame hstage =>
    have hlives : Live t := by
      rw [Live, hp]
      intro hgone
      cases hgone
    refine ⟨hcovers, fun _ => ?_, Or.inl fun hidle => absurd hidle (not_idles ?_)⟩
    · exact choking_of_same (hw.choking t ht hlives) hsame.currentPiece hsame.peerChoking
    · rw [hstage]
      intro hrunning
      cases hrunning
  | @finishes index spec _ s₁ _ _ hstage _ htr _ _ _ hendgame hfinish =>
    have hcovers₁ : Covers s₁.tracker s₁.endgame := by
      rw [htr]
      rcases hendgame with hsame | hdone
      · rw [hsame]
        exact hw.covers
      · rw [hdone]
        exact hw.covers.pieceDone (hw.written t ht index spec hstage)
    exact (finishPiece_starts hcovers₁ (by rw [htr]; exact hw.specs) (by rw [htr]; exact hw.inside)
      hgiven hfinish).moves
  | leaves _ _ _ =>
    refine ⟨hcovers, fun hl => absurd rfl hl, Or.inl fun hidle => absurd hidle (not_idles ?_)⟩
    intro hrunning
    cases hrunning

theorem mem_eraseIdx {j : ℕ} {u : Task} (hj : procs[j]? = some u) (hne : j ≠ n) :
    u ∈ procs.eraseIdx n := List.mem_eraseIdx_iff_getElem?.mpr ⟨j, hne, hj⟩

/-- A missing piece that is not free is not free afterwards, if its task stays at it. -/
theorem not_free_after (hn : procs[n]? = some t) (hfree : ¬ Free s procs i)
    (hi : i < s.tracker.pieceCount.toNat) (hmissing : i ∉ s.tracker.got)
    (hmove : Owns i t → Owns i t') : ¬ Free s' (procs.set n t') i := by
  have howner : ∃ w ∈ procs, Owns i w := by
    by_contra hnone
    exact hfree ⟨hi, hmissing, fun w hw howns => hnone ⟨w, hw, howns⟩⟩
  obtain ⟨w, hw, howns⟩ := exists_set hn howner hmove
  intro hfree'
  exact hfree'.2.2 w hw howns

/-- The task that moved does not idle beside a free piece. -/
theorem works_mover (hw : Working s procs) (hn : procs[n]? = some t)
    (hturn : Turn sha1 kind a s t s' t') (htask : TaskOk sha1 s.tracker.specs t)
    (hok : Gainful sha1 kind s procs n t a) (hidle : Idles s' t') (hi : i ∈ t'.peerPieces) :
    ¬ Free s' (procs.set n t') i := by
  intro hfree
  have ht : t ∈ procs := List.mem_of_getElem? hn
  have hlt : i < s.tracker.pieceCount.toNat := hturn.pieceCount ▸ hfree.1
  have hmissing : i ∉ s.tracker.got := fun hgot => hfree.2.1 (hturn.got_subset hgot)
  rcases (turn_moves hturn htask hw ht hok.given).idles with hsame | hchoking | hbusy | hnone
  · obtain ⟨hidle', hpieces⟩ := hsame hidle
    have hnot : ¬ Free s procs i := by
      rcases hpieces i hi with hold | hnew
      · exact hw.works t ht hidle' i hold
      · exact hok.announced hidle' i hnew
    refine not_free_after hn hnot hlt hmissing (fun howns => ?_) hfree
    exact absurd ⟨i, howns.2, hmissing⟩ hidle'.2.2
  · rw [hidle.2.1] at hchoking
    cases hchoking
  · exact hidle.2.2 hbusy
  · exact hfree.2.1 (hnone i hi hfree.1)

theorem works_other {j : ℕ} {u : Task} (hw : Working s procs) (hn : procs[n]? = some t)
    (hturn : Turn sha1 kind a s t s' t') (htask : TaskOk sha1 s.tracker.specs t)
    (hok : Gainful sha1 kind s procs n t a) (hj : procs[j]? = some u) (hne : j ≠ n)
    (hidle : Idles s' u) (hi : i ∈ u.peerPieces) : ¬ Free s' (procs.set n t') i := by
  intro hfree
  have hu : u ∈ procs := List.mem_of_getElem? hj
  have hlt : i < s.tracker.pieceCount.toNat := hturn.pieceCount ▸ hfree.1
  have hmissing : i ∉ s.tracker.got := fun hgot => hfree.2.1 (hturn.got_subset hgot)
  cases turn_change hturn htask hw.specs hw.inside (hw.written t (List.mem_of_getElem? hn)) with
  | keeps hgot hmove =>
    have hidle' : Idles s u := by
      rw [Idles, Busy, ← hgot]
      exact hidle
    by_cases hgives : givesUp sha1 kind s t a = some i
    · rcases hok.givenUp i hgives hlt hmissing with ⟨w, hwmem, howns⟩ | hnone
      · obtain ⟨k, hk, hat⟩ := List.mem_eraseIdx_iff_getElem?.mp hwmem
        exact hfree.2.2 w (mem_set_of_ne hat hk) howns
      · exact hnone u (mem_eraseIdx hj hne) hidle' hi
    · refine not_free_after hn (hw.works u hu hidle' i hi) hlt hmissing (fun howns => ?_) hfree
      exact (hmove i hmissing howns).resolve_right hgives
  | writes p hp hgot hmove =>
    have hip : i ≠ p := by
      rintro rfl
      exact hfree.2.1 (hgot ▸ Finset.mem_insert_self _ _)
    have hnot : ¬ Free s procs i := by
      by_cases hbusy : Busy s u
      · obtain ⟨q, hq, hqmissing⟩ := hbusy
        have hqp : q = p := by
          by_contra hqp
          refine hidle.2.2 ⟨q, hq, ?_⟩
          rw [hgot]
          intro hmem
          exact (Finset.mem_insert.mp hmem).elim hqp hqmissing
        refine hok.written p hp u (mem_eraseIdx hj hne) hidle.1 hidle.2.1 ?_ i hi hip
        rw [← hqp]
        exact hq
      · exact hw.works u hu ⟨hidle.1, hidle.2.1, hbusy⟩ i hi
    exact not_free_after hn hnot hlt hmissing (hmove i) hfree

theorem Working.turn (hw : Working s procs) (hn : procs[n]? = some t)
    (hturn : Turn sha1 kind a s t s' t') (htask : TaskOk sha1 s.tracker.specs t)
    (hok : Gainful sha1 kind s procs n t a) : Working s' (procs.set n t') := by
  have ht : t ∈ procs := List.mem_of_getElem? hn
  have hmoves := turn_moves hturn htask hw ht hok.given
  refine ⟨hturn.specs_length hw.specs, fun i hi => ?_, hmoves.covers, fun u hu index spec hstage => ?_,
    fun u hu => ?_, fun u hu hidle i hi => ?_⟩
  · rw [hturn.pieceCount]
    rcases hturn.effect with hs | ⟨index, spec, assembled, hp, ⟨k, byte, -, rfl⟩ | rfl⟩
    · rw [hs.marks.got] at hi
      exact hw.inside i hi
    · exact hw.inside i hi
    · rcases Finset.mem_insert.mp hi with rfl | hi
      · obtain ⟨-, hat, -⟩ := htask.writing i spec assembled (by rw [hp]; rfl)
        rw [← hw.specs]
        exact (List.getElem?_eq_some_iff.mp hat).1
      · exact hw.inside i hi
  · rcases mem_set_cases hu with rfl | hu
    · rcases hturn.written hstage with hold | hgot
      · exact hturn.got_subset (hw.written t ht index spec hold)
      · exact hgot
    · exact hturn.got_subset (hw.written u hu index spec hstage)
  · rcases mem_set_cases hu with rfl | hu
    · exact hmoves.choking
    · exact hw.choking u hu
  · obtain ⟨j, hj⟩ := List.mem_iff_getElem?.mp hu
    by_cases hne : j = n
    · subst hne
      rw [List.getElem?_set_self (List.getElem?_eq_some_iff.mp hn).1] at hj
      obtain rfl := Option.some.inj hj
      exact works_mover hw hn hturn htask hok hidle hi
    · rw [List.getElem?_set_ne (Ne.symm hne)] at hj
      exact works_other hw hn hturn htask hok hj hne hidle hi

theorem working_of_reach (hidle : Idle s₀)
    (hreach : Reach (taskStep sha1 kind) (Moves (Gainful sha1 kind)) ⟨s₀, []⟩ c) :
    Working c.shared c.procs := by
  refine peers_invariant (I := Working) hreach ?_ ?_ ?_
  · refine ⟨hidle.specs, fun i hi => Finset.mem_range.mp (hidle.got hi), ?_, by simp, by simp, by simp⟩
    rw [hidle.endgame]
    constructor
    · intro i hi
      cases hi
    · intro hon
      cases hon
  · intro s procs addr given rates h
    have hnew : ∀ {P : Task → Prop}, (∀ t ∈ procs, P t) → P (newTask addr given rates) →
        ∀ t ∈ procs ++ [newTask addr given rates], P t := by
      intro P hold hp t ht
      rcases List.mem_append.mp ht with ht | ht
      · exact hold t ht
      · rw [List.mem_singleton.mp ht]
        exact hp
    refine ⟨h.specs, h.inside, h.covers, hnew h.written (fun index spec hstage => ?_),
      hnew h.choking (fun _ _ => rfl), hnew (fun t ht hidle i hi hfree => ?_) (fun hidle => ?_)⟩
    · cases hstage
    · exact h.works t ht hidle i hi
        ⟨hfree.1, hfree.2.1, fun u hu => hfree.2.2 u (List.mem_append_left _ hu)⟩
    · exact absurd hidle (not_idles (by nofun))
  · intro _ _ _ _ _ _ _ h hn hok htask hturn
    exact h.turn hn hturn htask hok

/-- In every run whose steps leave no peer idle beside a free piece, a live task that is between
messages, is not choked and whose peer has a piece that is neither had nor fetched by a live task
is at a piece that is not had. -/
theorem peers_at_work (hidle : Idle s₀)
    (hreach : Reach (taskStep sha1 kind) (Moves (Gainful sha1 kind)) ⟨s₀, []⟩ c)
    (ht : t ∈ c.procs) (hresting : Resting t) (hlive : Live t) (hchoking : t.peerChoking = false)
    (hi : i ∈ t.peerPieces) (hlt : i < c.shared.tracker.pieceCount.toNat)
    (hmissing : i ∉ c.shared.tracker.got) (hfree : ∀ u ∈ c.procs, Live u → u.currentPiece ≠ some i) :
    ∃ p, t.currentPiece = some p ∧ p ∉ c.shared.tracker.got := by
  have hw := working_of_reach hidle hreach
  by_contra hnot
  rcases hresting with hp | hp | hp
  · obtain ⟨-, hnone⟩ := ((tasks_ok hreach).2 t ht).fresh (by rw [hp]; rfl)
    rw [hnone] at hi
    cases hi
  · have hidles : Idles c.shared t := by
      refine ⟨by rw [running_eq, hp]; rfl, hchoking, fun hbusy => hnot ?_⟩
      exact hbusy
    exact hw.works t ht hidles i hi ⟨hlt, hmissing, fun u hu howns => hfree u hu howns.1 howns.2⟩
  · exact absurd (by rw [hp]; rfl) hlive

/-- A peer announces its piece after it has unchoked us, and stays idle. -/
theorem peer_left_idle :
    ∃ s c, newTorrent 20 20 (List.replicate 20 7) = some s ∧
      run (taskStep id .files) ⟨s, []⟩ (joins 0 [0] ++ [.act 0 (.receives .unchoke 0),
        .act 0 (.receives (.havePiece 0) 0)]) = some c ∧
      (∀ t ∈ c.procs, Resting t) ∧ c.shared.tracker.pieceCount = 1 ∧ c.shared.tracker.got = ∅ ∧
      ∃ t ∈ c.procs, Live t ∧ t.peerChoking = false ∧ 0 ∈ t.peerPieces ∧
        (∀ u ∈ c.procs, Live u → u.currentPiece ≠ some 0) ∧ t.currentPiece = none :=
  ⟨_, _, rfl, rfl, by decide +kernel, by decide +kernel, by decide +kernel, by decide +kernel⟩

theorem peers_at_work_unchoked :
    ∃ s c, newTorrent 20 40 (List.replicate 40 7) = some s ∧
      run (taskStep id .files) ⟨s, []⟩ (joins 0 [192] ++ unchokes 0) = some c ∧
      ∃ t ∈ c.procs, (∀ u ∈ c.procs, Live u → u.currentPiece ≠ some 1) ∧
        ∃ p, t.currentPiece = some p ∧ p ∉ c.shared.tracker.got := by
  obtain ⟨s, hs⟩ : ∃ s, newTorrent 20 40 (List.replicate 40 7) = some s := ⟨_, rfl⟩
  obtain ⟨c, hrun, hok, ⟨hlt, hmissing⟩, t, ht, hresting, hlive, hchoking, hi, hfree⟩ :
      ∃ c, run (taskStep id .files) ⟨s, []⟩ (joins 0 [192] ++ unchokes 0) = some c ∧
        Allowed (taskStep id .files) (Moves (Gainful id .files)) ⟨s, []⟩ (joins 0 [192] ++ unchokes 0) ∧
        (1 < c.shared.tracker.pieceCount.toNat ∧ 1 ∉ c.shared.tracker.got) ∧
        ∃ t ∈ c.procs, Resting t ∧ Live t ∧ t.peerChoking = false ∧ 1 ∈ t.peerPieces ∧
          ∀ u ∈ c.procs, Live u → u.currentPiece ≠ some 1 := by
    obtain rfl := Option.some.inj hs
    exact ⟨_, rfl, by decide +kernel, by decide +kernel, by decide +kernel⟩
  exact ⟨s, c, hs, hrun, t, ht, hfree, peers_at_work (idle_of_newTorrent hs) (reach_run hok hrun) ht
    hresting hlive hchoking hi hlt hmissing hfree⟩

end WorkConservation
