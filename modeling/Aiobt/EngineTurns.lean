import Aiobt.PieceSearch
import Aiobt.SessionTasks

/-! # What one step of a peer task can do

A step is one of a few turns. What a turn does to the session and to the pieces of the task is all
that the invariants need; the message that is waited for next does not matter to them. -/
namespace EngineTurns

open ByteStrings PieceTracker PeerMessages PieceEngine PieceSearch FlatStore

/-- How far a task is with a piece that it has received completely. -/
inductive Stage where
  | fresh
  | running
  | writing (index : ℕ) (spec : PieceSpec) (assembled : Bytes)
  | written (index : ℕ) (spec : PieceSpec)
  | gone

def stage : Await → Stage
  | .starting => .fresh
  | .sendBitfield => .fresh
  | .write index spec assembled => .writing index spec assembled
  | .emitVerified index spec => .written index spec
  | .sendHave index spec => .written index spec
  | .sendCancel index spec _ _ _ => .written index spec
  | .disconnect => .gone
  | .ended => .gone
  | _ => .running

theorem stage_eq_gone {p : Await} : stage p = .gone ↔ p = .disconnect ∨ p = .ended := by
  cases p <;> simp [stage]

def Live (t : Task) : Prop := stage t.point ≠ .gone

instance (t : Task) : Decidable (Live t) :=
  decidable_of_iff (¬ (t.point = .disconnect ∨ t.point = .ended)) (not_congr stage_eq_gone.symm)

theorem Live.of_running {t : Task} (h : stage t.point = .running) : Live t := by
  rw [Live, h]
  nofun

structure SameState (s s' : Session) : Prop where
  tracker : s'.tracker = s.tracker
  endgame : s'.endgame = s.endgame
  storage : s'.storage = s.storage
  doneEvent : s'.doneEvent = s.doneEvent
  events : s'.events = s.events

/-- The task has the same pieces. It may have come to be choked while it had none to fetch. -/
structure SamePieces (t t' : Task) : Prop where
  addr : t'.addr = t.addr
  endgameGiven : t'.endgameGiven = t.endgameGiven
  currentPiece : t'.currentPiece = t.currentPiece
  pieceSpec : t'.pieceSpec = t.pieceSpec
  peerPieces : t'.peerPieces = t.peerPieces
  peerChoking : t'.peerChoking = t.peerChoking ∨ t'.peerChoking = true ∧ t.currentPiece = none

theorem SameState.refl (s : Session) : SameState s s := ⟨rfl, rfl, rfl, rfl, rfl⟩

theorem SamePieces.refl (t : Task) : SamePieces t t := ⟨rfl, rfl, rfl, rfl, rfl, Or.inl rfl⟩

theorem SamePieces.goto {t t' : Task} (h : SamePieces t t') (point : Await) :
    SamePieces t (t'.goto point) := ⟨h.1, h.2, h.3, h.4, h.5, h.6⟩

theorem SamePieces.send {t t' : Task} (h : SamePieces t t') (msg : Message) (point : Await) :
    SamePieces t (t'.send msg point) := ⟨h.1, h.2, h.3, h.4, h.5, h.6⟩

/-- The step that ends the handling of a verified piece: the Have is sent and no Cancel follows, or
the last Cancel is sent. -/
def ends : Action → Session → Task → Bool
  | .returns _, s, t =>
    match t.point with
    | .sendHave index spec =>
      !decide (t.endgameGiven ∧ s.endgame.active ∧ (s.endgame.peerRequests index).isSome ∧
        (s.endgame.pieceDone index).2.erase t.addr ≠ ∅ ∧ 0 < spec.length)
    | _ => false
  | .cancels addr _ _, _, t =>
    match t.point with
    | .sendCancel _ spec addrs offset left =>
      !decide (left.erase addr ≠ ∅ ∨
        addrs ≠ ∅ ∧ ((offset + blockLen spec offset : ℕ) : ℤ) < spec.length)
    | _ => false
  | _, _, _ => false

section
variable (sha1 : Bytes → Bytes) (kind : StorageKind)

inductive Leaves (a : Action) (s : Session) (t : Task) : Prop
  | raises : a = .raises → Leaves a s t
  | noBitfield : a = .starts → t.point = .starting → Leaves a s t
  /-- A piece of negative length is complete at once and cannot be assembled. -/
  | negative {index begin block hint spec} : a = .receives (.piece index begin block) hint →
      t.point = .receive → t.currentPiece = some index → t.pieceSpec = some spec →
      pieceComplete (setBlock t.pieceBlocks begin block) spec.length = true →
      assemblePiece (setBlock t.pieceBlocks begin block) spec.length = none → Leaves a s t
  | noSpec {index begin length hint} : a = .receives (.request index begin length) hint →
      t.point = .receive → index ∈ s.tracker.got → s.tracker.specs[index]? = none → Leaves a s t
  | shortRead {hint index begin length offset data} : a = .returns hint → kind = .blob →
      t.point = .read index begin length offset data → data.length ≠ length → Leaves a s t

inductive Turn (a : Action) (s : Session) (t : Task) : Session → Task → Prop
  | keeps {s' t'} : SameState s s' → SamePieces t t' → stage t'.point = stage t.point → Turn a s t s' t'
  | begins {hint} : a = .returns hint → t.point = .sendBitfield →
      Turn a s t s ({ t with peerChoking := true, amInterested := false }.goto .receive)
  | cancelled : a = .raises → t.point = .starting → Turn a s t s (t.goto .ended)
  | bitfield {data hint s' t'} : a = .receives (.bitfield data) hint → t.point = .receive →
      SameState { s with tracker :=
        s.tracker.updateAvailability (bitfieldToSet data s.tracker.pieceCount) } s' →
      SamePieces { t with peerPieces := bitfieldToSet data s.tracker.pieceCount } t' →
      stage t'.point = .running → Turn a s t s' t'
  | havePiece {index hint s' t'} : a = .receives (.havePiece index) hint → t.point = .receive →
      SameState { s with tracker := s.tracker.updateAvailability {index} } s' →
      SamePieces { t with peerPieces := insert index t.peerPieces } t' →
      stage t'.point = .running → Turn a s t s' t'
  | choked {hint p t'} : a = .receives .choke hint → t.point = .receive → t.currentPiece = some p →
      SamePieces t.dropPiece t' → t'.peerChoking = true → stage t'.point = .running →
      Turn a s t { s with tracker := s.tracker.markFailed p } t'
  /-- Unchoked with a piece at hand, or with nothing left to do. -/
  | unchoked {hint t'} : a = .receives .unchoke hint → t.point = .receive →
      s.tracker.isComplete ∨ t.currentPiece ≠ none → SamePieces { t with peerChoking := false } t' →
      stage t'.point = .running → Turn a s t s t'
  | starts {hint t₁ s' t'} : a = .receives .unchoke hint → t.point = .receive →
      ¬ s.tracker.isComplete → t.currentPiece = none →
      SamePieces { t with peerChoking := false } t₁ → t₁.peerChoking = false →
      stage t₁.point = .running → nextPiece hint s t₁ = (s', t') → Turn a s t s' t'
  | verifies {index begin block hint spec assembled t'} :
      a = .receives (.piece index begin block) hint → t.point = .receive →
      t.currentPiece = some index → t.pieceSpec = some spec →
      verifyPiece sha1 assembled spec.hash = true → SamePieces t t' →
      stage t'.point = .writing index spec assembled → Turn a s t s t'
  | fails {index begin block hint spec assembled t₁ s' t'} :
      a = .receives (.piece index begin block) hint → t.point = .receive →
      t.currentPiece = some index → t.pieceSpec = some spec →
      pieceComplete (setBlock t.pieceBlocks begin block) spec.length = true →
      assemblePiece (setBlock t.pieceBlocks begin block) spec.length = some assembled →
      verifyPiece sha1 assembled spec.hash = false → SamePieces t t₁ → stage t₁.point = .running →
      finishPiece hint { s with tracker := s.tracker.markFailed index } t₁ = (s', t') →
      Turn a s t s' t'
  | stores {index spec assembled k byte} : a = .stores k → t.point = .write index spec assembled →
      assembled[k]? = some byte →
      Turn a s t { s with storage := s.storage.set (spec.offset.toNat + k) byte } t
  | writes {index spec assembled hint} : a = .returns hint → t.point = .write index spec assembled →
      Turn a s t { s with
        storage := flatWrite s.storage spec.offset.toNat assembled
        tracker := s.tracker.markHave index
        events := s.events ++ [.pieceVerified index] } (t.goto (.emitVerified index spec))
  /-- The piece leaves the endgame; its Cancel messages are next. -/
  | withdraws {index spec hint t'} : a = .returns hint → t.point = .sendHave index spec →
      SamePieces t t' → stage t'.point = .written index spec →
      Turn a s t { s with endgame := (s.endgame.pieceDone index).1 } t'
  | finishes {index spec hint s₁ s' t'} : stage t.point = .written index spec → ends a s t = true →
      s₁.tracker = s.tracker → s₁.storage = s.storage → s₁.doneEvent = s.doneEvent →
      s₁.events = s.events →
      s₁.endgame = s.endgame ∨ s₁.endgame = (s.endgame.pieceDone index).1 →
      finishPiece hint s₁ t = (s', t') → Turn a s t s' t'
  | leaves {t₁} : Leaves kind a s t → Live t → SamePieces t t₁ →
      Turn a s t (cleanup s t₁).1 (cleanup s t₁).2

end

variable {sha1 : Bytes → Bytes} {kind : StorageKind} {a : Action} {hint : ℕ} {s s' : Session}
  {t t' : Task}

theorem announced_spec (interest : Bool) :
    SameState s (announced s t interest).1 ∧ SamePieces t (announced s t interest).2 ∧
      stage (announced s t interest).2.point = .running := by
  unfold announced
  split
  · exact ⟨.refl s, (SamePieces.refl t).send _ _, rfl⟩
  · exact ⟨.refl s, (SamePieces.refl t).goto _, rfl⟩

theorem onRequest_turn {index begin length : ℕ} {t₁ : Task}
    (ha : a = .receives (.request index begin length) hint) (hp : t.point = .receive)
    (ht : SamePieces t t₁) :
    Turn sha1 kind a s t (onRequest s t₁ index begin length).1 (onRequest s t₁ index begin length).2 := by
  have hstage : stage t.point = .running := by rw [hp]; rfl
  unfold onRequest
  split
  · exact .keeps (.refl s) (ht.goto _) (by rw [hstage]; rfl)
  · split
    · next hgot =>
      split
      · next hspec =>
        exact .leaves (.noSpec ha hp hgot hspec) (by rw [Live, hstage]; nofun) ht
      · refine .keeps (.refl s) ⟨ht.1, ht.2, ht.3, ht.4, ht.5, ht.6⟩ ?_
        rw [hstage]
        rfl
    · exact .keeps (.refl s) (ht.goto _) (by rw [hstage]; rfl)

theorem onBlock_turn {index begin : ℕ} {block : Bytes} {t₁ : Task}
    (ha : a = .receives (.piece index begin block) hint) (hp : t.point = .receive)
    (hcur : t.currentPiece = some index) (ht : SamePieces t t₁) (hp₁ : t₁.point = .receive)
    (hblocks : t₁.pieceBlocks = t.pieceBlocks) :
    Turn sha1 kind a s t (onBlock sha1 hint s t₁ index begin block).1
      (onBlock sha1 hint s t₁ index begin block).2 := by
  have hstage : stage t.point = .running := by rw [hp]; rfl
  have hlive : Live t := by rw [Live, hstage]; nofun
  have ht₂ : SamePieces t ({ t₁ with
      pieceBlocks := setBlock t₁.pieceBlocks begin block }.countDown block.length) :=
    ⟨ht.1, ht.2, ht.3, ht.4, ht.5, ht.6⟩
  have hspec : ({ t₁ with pieceBlocks := setBlock t₁.pieceBlocks begin block }.countDown
      block.length).pieceSpec = t.pieceSpec := ht.pieceSpec
  have hset : ({ t₁ with pieceBlocks := setBlock t₁.pieceBlocks begin block }.countDown
      block.length).pieceBlocks = setBlock t.pieceBlocks begin block := by
    rw [← hblocks]
    rfl
  unfold onBlock
  simp only [hspec, hset]
  split
  · exact .keeps (.refl s) (ht₂.goto _) (by rw [hstage]; rfl)
  · next spec hsome =>
    split
    · next hcomplete =>
      split
      · next hnone => exact .leaves (.negative ha hp hcur hsome hcomplete hnone) hlive ht₂
      · next assembled hassembled =>
        split
        · next hverify => exact .verifies ha hp hcur hsome hverify (ht₂.goto _) rfl
        · next hverify =>
          refine .fails ha hp hcur hsome hcomplete hassembled (by simpa using hverify) ht₂ ?_ rfl
          show stage t₁.point = .running
          rw [hp₁]
          rfl
    · exact .keeps (.refl s) (ht₂.goto _) (by rw [hstage]; rfl)

theorem onMessage_turn {msg : Message} (ha : a = .receives msg hint) (hp : t.point = .receive) :
    Turn sha1 kind a s t (onMessage sha1 hint s t msg).1 (onMessage sha1 hint s t msg).2 := by
  have hstage : stage t.point = .running := by rw [hp]; rfl
  have hlog : SamePieces t { t with log := t.log ++ [.received msg t.amChoking] } :=
    ⟨rfl, rfl, rfl, rfl, rfl, Or.inl rfl⟩
  have hstay : stage (Task.goto t .receive).point = stage t.point := by rw [hstage]; rfl
  cases msg with
  | keepAlive => exact .keeps (.refl s) (hlog.goto _) hstay
  | bitfield data =>
    obtain ⟨hs, ht, hpoint⟩ := announced_spec true
      (s := { s with tracker :=
        s.tracker.updateAvailability (bitfieldToSet data s.tracker.pieceCount) })
      (t := { t with
        log := t.log ++ [.received (.bitfield data) t.amChoking]
        peerPieces := bitfieldToSet data s.tracker.pieceCount })
    exact .bitfield ha hp hs ⟨ht.1, ht.2, ht.3, ht.4, ht.5, ht.6⟩ hpoint
  | havePiece index =>
    obtain ⟨hs, ht, hpoint⟩ := announced_spec (!t.amInterested)
      (s := { s with tracker := s.tracker.updateAvailability {index} })
      (t := { t with
        log := t.log ++ [.received (.havePiece index) t.amChoking]
        peerPieces := insert index t.peerPieces })
    exact .havePiece ha hp hs ⟨ht.1, ht.2, ht.3, ht.4, ht.5, ht.6⟩ hpoint
  | interested =>
    simp only [onMessage]
    split
    · exact .keeps (.refl s) ⟨rfl, rfl, rfl, rfl, rfl, Or.inl rfl⟩ hstay
    · exact .keeps (.refl s) (hlog.send _ _) hstay
  | notInterested => exact .keeps (.refl s) ⟨rfl, rfl, rfl, rfl, rfl, Or.inl rfl⟩ hstay
  | choke =>
    simp only [onMessage]
    split
    · next hnone => exact .keeps (.refl s) ⟨rfl, rfl, rfl, rfl, rfl, Or.inr ⟨rfl, hnone⟩⟩ hstay
    · next idx hidx =>
      exact .choked ha hp hidx ⟨rfl, rfl, rfl, rfl, rfl, Or.inr ⟨rfl, rfl⟩⟩ rfl rfl
  | unchoke =>
    simp only [onMessage]
    split
    · next h =>
      refine .starts ha hp h.1 h.2 ?_ ?_ ?_ rfl
      · exact ⟨rfl, rfl, rfl, rfl, rfl, Or.inl rfl⟩
      · rfl
      · exact hstage
    · next h =>
      rw [not_and_or, not_not] at h
      exact .unchoked ha hp h ⟨rfl, rfl, rfl, rfl, rfl, Or.inl rfl⟩ rfl
  | request index begin length => exact onRequest_turn ha hp hlog
  | piece index begin block =>
    simp only [onMessage]
    split
    · next hcur => exact onBlock_turn ha hp hcur hlog hp rfl
    · exact .keeps (.refl s) (hlog.goto _) hstay
  | cancel index begin length => exact .keeps (.refl s) (hlog.goto _) hstay

theorem samePieces_requestFrom (t : Task) (spec : PieceSpec) (offset : ℕ) :
    SamePieces t (requestFrom t spec offset) ∧ stage (requestFrom t spec offset).point = .running := by
  unfold requestFrom
  split
  · exact ⟨(SamePieces.refl t).send _ _, rfl⟩
  · exact ⟨(SamePieces.refl t).goto _, rfl⟩

theorem afterHave_turn {index : ℕ} {spec : PieceSpec} (ha : a = .returns hint)
    (hp : t.point = .sendHave index spec) :
    Turn sha1 kind a s t (afterHave hint s t index spec).1 (afterHave hint s t index spec).2 := by
  have hstage : stage t.point = .written index spec := by rw [hp]; rfl
  unfold afterHave
  split
  · simp only [cancelFrom]
    split
    · exact .withdraws ha hp ((SamePieces.refl t).goto _) rfl
    · next hlast =>
      have hends : ends a s t = true := by
        simp only [ha, ends, hp, Bool.not_eq_true', decide_eq_false_iff_not]
        intro h
        exact hlast h.2.2.2
      refine .finishes hstage hends ?_ ?_ ?_ ?_ (Or.inr ?_) rfl <;> rfl
  · next hnone =>
    have hends : ends a s t = true := by
      simp only [ha, ends, hp, Bool.not_eq_true', decide_eq_false_iff_not]
      intro h
      exact hnone ⟨h.1, h.2.1, h.2.2.1⟩
    exact .finishes hstage hends rfl rfl rfl rfl (Or.inl rfl) rfl

theorem resume_turn (h : resume kind hint s t = some (s', t')) :
    Turn sha1 kind (.returns hint) s t s' t' := by
  unfold resume at h
  split at h
  case h_1 hp =>
    obtain ⟨rfl, rfl⟩ := Prod.mk.inj (Option.some.inj h)
    exact .begins rfl hp
  case h_2 hp =>
    obtain ⟨rfl, rfl⟩ := Prod.mk.inj (Option.some.inj h)
    exact .keeps (.refl s) ⟨rfl, rfl, rfl, rfl, rfl, Or.inl rfl⟩ (by rw [hp]; rfl)
  case h_3 hp =>
    obtain ⟨rfl, rfl⟩ := Prod.mk.inj (Option.some.inj h)
    exact .keeps (.refl s) ((SamePieces.refl t).goto _) (by rw [hp]; rfl)
  case h_4 spec offset hp =>
    obtain ⟨rfl, rfl⟩ := Prod.mk.inj (Option.some.inj h)
    obtain ⟨ht, hpoint⟩ := samePieces_requestFrom t spec (offset + blockLen spec offset)
    exact .keeps (.refl s) ht (by rw [hp, hpoint]; rfl)
  case h_5 index begin length offset data hp =>
    split at h
    · cases h
    · split at h
      · next hshort =>
        obtain ⟨rfl, rfl⟩ := Prod.mk.inj (Option.some.inj h)
        exact .leaves (.shortRead rfl hshort.1 hp hshort.2) (by rw [Live, hp]; nofun) (.refl t)
      · obtain ⟨rfl, rfl⟩ := Prod.mk.inj (Option.some.inj h)
        exact .keeps (.refl s) ((SamePieces.refl t).send _ _) (by rw [hp]; rfl)
  case h_6 size hp =>
    obtain ⟨rfl, rfl⟩ := Prod.mk.inj (Option.some.inj h)
    exact .keeps (.refl s) ⟨rfl, rfl, rfl, rfl, rfl, Or.inl rfl⟩ (by rw [hp]; rfl)
  case h_7 index spec assembled hp =>
    obtain ⟨rfl, rfl⟩ := Prod.mk.inj (Option.some.inj h)
    exact .writes rfl hp
  case h_8 index spec hp =>
    obtain ⟨rfl, rfl⟩ := Prod.mk.inj (Option.some.inj h)
    exact .keeps (.refl s) ((SamePieces.refl t).send _ _) (by rw [hp]; rfl)
  case h_9 index spec hp =>
    obtain ⟨rfl, rfl⟩ := Prod.mk.inj (Option.some.inj h)
    exact afterHave_turn rfl hp
  case h_10 hp =>
    obtain ⟨rfl, rfl⟩ := Prod.mk.inj (Option.some.inj h)
    exact .keeps (.refl s) ((SamePieces.refl t).send _ _) (by rw [hp]; rfl)
  case h_11 hp =>
    obtain ⟨rfl, rfl⟩ := Prod.mk.inj (Option.some.inj h)
    exact .keeps (.refl s) ⟨rfl, rfl, rfl, rfl, rfl, Or.inl rfl⟩ (by rw [hp]; rfl)
  case h_12 hp =>
    obtain ⟨rfl, rfl⟩ := Prod.mk.inj (Option.some.inj h)
    exact .keeps ⟨rfl, rfl, rfl, rfl, rfl⟩ ((SamePieces.refl t).goto _) (by rw [hp]; rfl)
  case h_13 => cases h

theorem cancelStep_turn {addr : Address} {connected : Bool}
    (h : cancelStep addr connected hint s t = some (s', t')) :
    Turn sha1 kind (.cancels addr connected hint) s t s' t' := by
  unfold cancelStep at h
  split at h
  · next index spec addrs offset left hp =>
    have hstage : stage t.point = .written index spec := by rw [hp]; rfl
    split at h
    · obtain ⟨s₁, hs₁, hsame⟩ : ∃ s₁, s₁ = (if connected then
          { s with cancels := s.cancels ++ [(addr, .cancel index offset (blockLen spec offset))] }
          else s) ∧ SameState s s₁ := by
        refine ⟨_, rfl, ?_⟩
        split
        · exact ⟨rfl, rfl, rfl, rfl, rfl⟩
        · exact .refl s
      simp only [← hs₁] at h
      split at h
      · obtain ⟨rfl, rfl⟩ := Prod.mk.inj (Option.some.inj h)
        exact .keeps hsame ((SamePieces.refl t).goto _) (by rw [hstage]; rfl)
      · next hlast =>
        have h := Option.some.inj h
        unfold cancelFrom at h
        split at h
        · obtain ⟨rfl, rfl⟩ := Prod.mk.inj h
          exact .keeps hsame ((SamePieces.refl t).goto _) (by rw [hstage]; rfl)
        · next hover =>
          have hends : ends (.cancels addr connected hint) s t = true := by
            simp only [ends, hp, Bool.not_eq_true', decide_eq_false_iff_not]
            exact not_or.mpr ⟨hlast, hover⟩
          exact .finishes hstage hends hsame.tracker hsame.storage hsame.doneEvent hsame.events
            (Or.inl hsame.endgame) h
    · cases h
  · cases h

theorem turn_of_step (h : taskStep sha1 kind a s t = some (s', t')) :
    Turn sha1 kind a s t s' t' := by
  cases a with
  | starts =>
    simp only [taskStep] at h
    split at h
    · next hp =>
      split at h
      · obtain ⟨rfl, rfl⟩ := Prod.mk.inj (Option.some.inj h)
        exact .leaves (.noBitfield rfl hp) (by rw [Live, hp]; nofun) (.refl t)
      · obtain ⟨rfl, rfl⟩ := Prod.mk.inj (Option.some.inj h)
        exact .keeps (.refl s) ((SamePieces.refl t).send _ _) (by rw [hp]; rfl)
    · cases h
  | receives msg hint =>
    simp only [taskStep] at h
    split at h
    · next hp =>
      obtain ⟨rfl, rfl⟩ := Prod.mk.inj (Option.some.inj h)
      exact onMessage_turn rfl hp
    · cases h
  | returns hint => exact resume_turn h
  | raises =>
    simp only [taskStep] at h
    split at h
    · next hp =>
      obtain ⟨rfl, rfl⟩ := Prod.mk.inj (Option.some.inj h)
      exact .cancelled rfl hp
    · next hp =>
      obtain ⟨rfl, rfl⟩ := Prod.mk.inj (Option.some.inj h)
      exact .keeps ⟨rfl, rfl, rfl, rfl, rfl⟩ ((SamePieces.refl t).goto _) (by rw [hp]; rfl)
    · cases h
    · next hstart hdis hend =>
      obtain ⟨rfl, rfl⟩ := Prod.mk.inj (Option.some.inj h)
      refine .leaves (.raises rfl) (fun hgone => ?_) (.refl t)
      rcases stage_eq_gone.mp hgone with hp | hp
      · exact hdis hp
      · exact hend hp
  | fetches =>
    simp only [taskStep] at h
    split at h
    · next hp =>
      obtain ⟨byte, -, heq⟩ := Option.map_eq_some_iff.mp h
      obtain ⟨rfl, rfl⟩ := Prod.mk.inj heq
      exact .keeps (.refl s) ((SamePieces.refl t).goto _) (by rw [hp]; rfl)
    · cases h
  | stores k =>
    simp only [taskStep] at h
    split at h
    · next hp =>
      obtain ⟨byte, hbyte, heq⟩ := Option.map_eq_some_iff.mp h
      obtain ⟨rfl, rfl⟩ := Prod.mk.inj heq
      exact .stores rfl hp hbyte
    · cases h
  | cancels addr connected hint => exact cancelStep_turn h
  | rechokes amChoking =>
    simp only [taskStep] at h
    split at h
    · cases h
    · obtain ⟨rfl, rfl⟩ := Prod.mk.inj (Option.some.inj h)
      exact .keeps (.refl s) ⟨rfl, rfl, rfl, rfl, rfl, Or.inl rfl⟩ rfl

theorem rechokes_cases {amChoking : Bool}
    (h : taskStep sha1 kind (.rechokes amChoking) s t = some (s', t')) :
    ∃ rates, t.rates = some rates ∧ s' = s ∧
      t' = { t with rates := some { rates with amChoking := amChoking } } := by
  simp only [taskStep] at h
  split at h
  · cases h
  · next rates hrates =>
    obtain ⟨rfl, rfl⟩ := Prod.mk.inj (Option.some.inj h)
    exact ⟨rates, hrates, rfl, rfl⟩

theorem nextPiece_cases (h : nextPiece hint s t = (s', t')) :
    ∃ tr eg started, startPiece hint s.tracker s.endgame t = (tr, eg, started) ∧
      (started = .nothing ∧ s' = { s with tracker := tr, endgame := eg } ∧
          t' = t.dropPiece.goto .receive ∨
        (∃ idx spec, started = .piece idx spec ∧ s' = { s with tracker := tr, endgame := eg } ∧
          t' = requestFrom (t.takePiece idx spec) spec 0) ∨
        started = .indexError ∧ s' = (cleanup { s with tracker := tr, endgame := eg } t).1 ∧
          t' = (cleanup { s with tracker := tr, endgame := eg } t).2) := by
  unfold nextPiece at h
  cases hstart : startPiece hint s.tracker s.endgame t with
  | mk tr rest =>
    cases rest with
    | mk eg started =>
      refine ⟨tr, eg, started, rfl, ?_⟩
      rw [hstart] at h
      cases started with
      | nothing =>
        obtain ⟨rfl, rfl⟩ := Prod.mk.inj h
        exact Or.inl ⟨rfl, rfl, rfl⟩
      | piece idx spec =>
        obtain ⟨rfl, rfl⟩ := Prod.mk.inj h
        exact Or.inr (Or.inl ⟨idx, spec, rfl, rfl, rfl⟩)
      | indexError =>
        obtain ⟨rfl, rfl⟩ := Prod.mk.inj h
        exact Or.inr (Or.inr ⟨rfl, rfl, rfl⟩)

theorem finishPiece_cases (h : finishPiece hint s t = (s', t')) :
    s.tracker.isComplete ∧ s' = { s with doneEvent := true, events := s.events ++ [.completed] } ∧
        t' = t.dropPiece.goto .emitCompleted ∨
      ¬ s.tracker.isComplete ∧ t.peerChoking = true ∧ s' = s ∧ t' = t.dropPiece.goto .receive ∨
      ¬ s.tracker.isComplete ∧ t.peerChoking = false ∧ nextPiece hint s t.dropPiece = (s', t') := by
  unfold finishPiece at h
  split at h
  · next hcomplete =>
    obtain ⟨rfl, rfl⟩ := Prod.mk.inj h
    exact Or.inl ⟨hcomplete, rfl, rfl⟩
  · next hcomplete =>
    split at h
    · next hchoking =>
      obtain ⟨rfl, rfl⟩ := Prod.mk.inj h
      exact Or.inr (Or.inl ⟨hcomplete, hchoking, rfl, rfl⟩)
    · next hchoking => exact Or.inr (Or.inr ⟨hcomplete, by simpa using hchoking, h⟩)

theorem nextPiece_stage (h : nextPiece hint s t = (s', t')) :
    stage t'.point = .running ∨ stage t'.point = .gone := by
  obtain ⟨tr, eg, started, -, hcases⟩ := nextPiece_cases h
  rcases hcases with ⟨-, -, rfl⟩ | ⟨idx, spec, -, -, rfl⟩ | ⟨-, -, rfl⟩
  · exact Or.inl rfl
  · exact Or.inl (samePieces_requestFrom _ spec 0).2
  · exact Or.inr rfl

theorem finishPiece_stage (h : finishPiece hint s t = (s', t')) :
    stage t'.point = .running ∨ stage t'.point = .gone := by
  rcases finishPiece_cases h with ⟨-, -, rfl⟩ | ⟨-, -, -, rfl⟩ | ⟨-, -, hnext⟩
  · exact Or.inl rfl
  · exact Or.inl rfl
  · exact nextPiece_stage hnext

structure Undisturbed (s s' : Session) : Prop where
  marks : Marks s.tracker s'.tracker
  storage : s'.storage = s.storage

theorem Undisturbed.trans {s'' : Session} (h : Undisturbed s s') (k : Undisturbed s' s'') :
    Undisturbed s s'' := ⟨h.marks.trans k.marks, k.storage.trans h.storage⟩

theorem Undisturbed.markFailed (s : Session) (index : ℕ) :
    Undisturbed s { s with tracker := s.tracker.markFailed index } :=
  ⟨Marks.markFailed s.tracker index, rfl⟩

theorem Undisturbed.updateAvailability (s : Session) (pieces : Finset ℕ) :
    Undisturbed s { s with tracker := s.tracker.updateAvailability pieces } :=
  ⟨Marks.updateAvailability s.tracker pieces, rfl⟩

theorem SameState.undisturbed (h : SameState s s') : Undisturbed s s' := by
  refine ⟨?_, h.storage⟩
  rw [h.tracker]
  exact Marks.refl s.tracker

theorem cleanup_undisturbed (s : Session) (t : Task) : Undisturbed s (cleanup s t).1 := by
  refine ⟨?_, rfl⟩
  unfold cleanup
  cases t.currentPiece with
  | none => exact Marks.removeAvailability _ _
  | some p => exact (Marks.markFailed _ p).trans (Marks.removeAvailability _ _)

theorem nextPiece_undisturbed (h : nextPiece hint s t = (s', t')) : Undisturbed s s' := by
  obtain ⟨tr, eg, started, hstart, hcases⟩ := nextPiece_cases h
  have hmarks : Marks s.tracker tr := by
    have : Marks s.tracker (startPiece hint s.tracker s.endgame t).1 := startPiece_marks
    rw [hstart] at this
    exact this
  have hnext : Undisturbed s { s with tracker := tr, endgame := eg } := ⟨hmarks, rfl⟩
  rcases hcases with ⟨-, rfl, -⟩ | ⟨idx, spec, -, rfl, -⟩ | ⟨-, rfl, -⟩
  · exact hnext
  · exact hnext
  · exact hnext.trans (cleanup_undisturbed _ t)

theorem finishPiece_undisturbed (h : finishPiece hint s t = (s', t')) : Undisturbed s s' := by
  rcases finishPiece_cases h with ⟨-, rfl, -⟩ | ⟨-, -, rfl, -⟩ | ⟨-, -, hnext⟩
  · exact ⟨Marks.refl _, rfl⟩
  · exact ⟨Marks.refl _, rfl⟩
  · exact nextPiece_undisturbed hnext

structure TaskOk (sha1 : Bytes → Bytes) (specs : List PieceSpec) (t : Task) : Prop where
  current : ∀ p, t.currentPiece = some p → ∃ spec, t.pieceSpec = some spec ∧ specs[p]? = some spec
  fresh : stage t.point = .fresh → t.currentPiece = none ∧ t.peerPieces = ∅
  writing : ∀ index spec assembled, stage t.point = .writing index spec assembled →
    t.currentPiece = some index ∧ specs[index]? = some spec ∧
      verifyPiece sha1 assembled spec.hash = true
  written : ∀ index spec, stage t.point = .written index spec →
    t.currentPiece = some index ∧ specs[index]? = some spec

variable {specs : List PieceSpec}

theorem newTask_taskOk (specs : List PieceSpec) (addr : Address) (given : Bool)
    (rates : Option Rates) : TaskOk sha1 specs (newTask addr given rates) where
  current p hp := by cases hp
  fresh _ := ⟨rfl, rfl⟩
  writing index spec assembled hw := by cases hw
  written index spec hw := by cases hw

theorem TaskOk.same (h : TaskOk sha1 specs t) (ht : SamePieces t t')
    (hstage : stage t'.point = stage t.point) : TaskOk sha1 specs t' where
  current p hp := by
    rw [ht.currentPiece] at hp
    rw [ht.pieceSpec]
    exact h.current p hp
  fresh hf := by
    rw [ht.currentPiece, ht.peerPieces]
    exact h.fresh (hstage ▸ hf)
  writing index spec assembled hw := by
    rw [ht.currentPiece]
    exact h.writing index spec assembled (hstage ▸ hw)
  written index spec hw := by
    rw [ht.currentPiece]
    exact h.written index spec (hstage ▸ hw)

/-- A task that is running or gone has nothing but its piece to answer for. -/
theorem TaskOk.of_running (hstage : stage t.point = .running ∨ stage t.point = .gone)
    (h : ∀ p, t.currentPiece = some p → ∃ spec, t.pieceSpec = some spec ∧ specs[p]? = some spec) :
    TaskOk sha1 specs t where
  current := h
  fresh hf := by
    rcases hstage with hs | hs
    · rw [hs] at hf; cases hf
    · rw [hs] at hf; cases hf
  writing index spec assembled hw := by
    rcases hstage with hs | hs
    · rw [hs] at hw; cases hw
    · rw [hs] at hw; cases hw
  written index spec hw := by
    rcases hstage with hs | hs
    · rw [hs] at hw; cases hw
    · rw [hs] at hw; cases hw

theorem TaskOk.running (h : TaskOk sha1 specs t) (hcur : t'.currentPiece = t.currentPiece)
    (hspec : t'.pieceSpec = t.pieceSpec) (hstage : stage t'.point = .running) :
    TaskOk sha1 specs t' := by
  refine .of_running (Or.inl hstage) fun p hp => ?_
  rw [hcur] at hp
  rw [hspec]
  exact h.current p hp

theorem nextPiece_taskOk (hcur : t.currentPiece = none) (h : nextPiece hint s t = (s', t')) :
    TaskOk sha1 s.tracker.specs t' := by
  obtain ⟨tr, eg, started, hstart, hcases⟩ := nextPiece_cases h
  rcases hcases with ⟨-, -, rfl⟩ | ⟨idx, spec, rfl, -, rfl⟩ | ⟨-, -, rfl⟩
  · exact .of_running (Or.inl rfl) fun p hp => by cases hp
  · obtain ⟨ht, hpoint⟩ := samePieces_requestFrom (t.takePiece idx spec) spec 0
    refine .of_running (Or.inl hpoint) fun p hp => ?_
    rw [ht.currentPiece] at hp
    obtain rfl : idx = p := Option.some.inj hp
    exact ⟨spec, ht.pieceSpec, (startPiece_piece hstart).2.2⟩
  · refine .of_running (Or.inr rfl) fun p hp => ?_
    rw [show (cleanup _ t).2.currentPiece = t.currentPiece from rfl, hcur] at hp
    cases hp

theorem finishPiece_taskOk (h : finishPiece hint s t = (s', t')) :
    TaskOk sha1 s.tracker.specs t' := by
  have hdrop : ∀ point, stage point = .running →
      TaskOk sha1 s.tracker.specs (t.dropPiece.goto point) := fun point hpoint =>
    .of_running (Or.inl hpoint) fun p hp => by cases hp
  rcases finishPiece_cases h with ⟨-, -, rfl⟩ | ⟨-, -, -, rfl⟩ | ⟨-, -, hnext⟩
  · exact hdrop _ rfl
  · exact hdrop _ rfl
  · exact nextPiece_taskOk rfl hnext

/-- Specifications never change, and what a task knows of its piece stays right. -/
theorem Turn.taskOk (h : Turn sha1 kind a s t s' t') (hok : TaskOk sha1 s.tracker.specs t) :
    s'.tracker.specs = s.tracker.specs ∧ TaskOk sha1 s.tracker.specs t' := by
  cases h with
  | keeps hs ht hstage => exact ⟨by rw [hs.tracker], hok.same ht hstage⟩
  | begins => exact ⟨rfl, hok.running rfl rfl rfl⟩
  | cancelled => exact ⟨rfl, .of_running (Or.inr rfl) hok.current⟩
  | bitfield _ _ hs ht hstage =>
    exact ⟨by rw [hs.tracker]; rfl, hok.running ht.currentPiece ht.pieceSpec hstage⟩
  | havePiece _ _ hs ht hstage =>
    exact ⟨by rw [hs.tracker]; rfl, hok.running ht.currentPiece ht.pieceSpec hstage⟩
  | choked _ _ _ ht _ hstage =>
    refine ⟨rfl, .of_running (Or.inl hstage) fun p hp => ?_⟩
    rw [ht.currentPiece] at hp
    cases hp
  | unchoked _ _ _ ht hstage => exact ⟨rfl, hok.running ht.currentPiece ht.pieceSpec hstage⟩
  | starts _ _ _ hnone ht _ _ hnext =>
    exact ⟨(nextPiece_undisturbed hnext).marks.specs,
      nextPiece_taskOk (ht.currentPiece.trans hnone) hnext⟩
  | @verifies index begin block hint spec assembled t' _ _ hcur hspec hverify ht hstage =>
    refine ⟨rfl, ?_, ?_, ?_, ?_⟩
    · intro p hp
      rw [ht.currentPiece] at hp
      rw [ht.pieceSpec]
      exact hok.current p hp
    · intro hf
      rw [hstage] at hf
      cases hf
    · intro i sp d hw
      rw [hstage] at hw
      cases hw
      obtain ⟨spec', hspec', hat⟩ := hok.current index hcur
      rw [hspec] at hspec'
      cases hspec'
      exact ⟨ht.currentPiece.trans hcur, hat, hverify⟩
    · intro i sp hw
      rw [hstage] at hw
      cases hw
  | fails _ _ _ _ _ _ _ _ _ hfinish =>
    have htask : TaskOk sha1 _ t' := finishPiece_taskOk hfinish
    exact ⟨(finishPiece_undisturbed hfinish).marks.specs, htask⟩
  | stores => exact ⟨rfl, hok⟩
  | @writes index spec assembled hint _ hp =>
    obtain ⟨hcur, hat, -⟩ := hok.writing index spec assembled (by rw [hp]; rfl)
    refine ⟨rfl, hok.current, ?_, ?_, ?_⟩
    · intro hf
      cases hf
    · intro i sp d hw
      cases hw
    · intro i sp hw
      cases hw
      exact ⟨hcur, hat⟩
  | @withdraws index spec hint t' _ hp ht hstage =>
    refine ⟨rfl, hok.same ht ?_⟩
    rw [hstage, hp]
    rfl
  | finishes _ _ htr _ _ _ _ hfinish =>
    have hspecs := (finishPiece_undisturbed hfinish).marks.specs
    have htask : TaskOk sha1 _ t' := finishPiece_taskOk hfinish
    rw [htr] at hspecs htask
    exact ⟨hspecs, htask⟩
  | leaves _ _ ht =>
    refine ⟨(cleanup_undisturbed s _).marks.specs, .of_running (Or.inr rfl) fun p hp => ?_⟩
    exact (hok.same (ht.goto t.point) rfl).current p hp

/-- A task that has written a piece had written it before, or has just done so. -/
theorem Turn.written {index : ℕ} {spec : PieceSpec} (h : Turn sha1 kind a s t s' t')
    (hstage' : stage t'.point = .written index spec) :
    stage t.point = .written index spec ∨ index ∈ s'.tracker.got := by
  have hnot : stage t'.point = .running ∨ stage t'.point = .gone → False := fun hstage => by
    rcases hstage with hs | hs
    · rw [hs] at hstage'; cases hstage'
    · rw [hs] at hstage'; cases hstage'
  cases h with
  | keeps _ _ hstage => exact Or.inl (hstage ▸ hstage')
  | begins => exact (hnot (Or.inl rfl)).elim
  | cancelled => exact (hnot (Or.inr rfl)).elim
  | bitfield _ _ _ _ hstage => exact (hnot (Or.inl hstage)).elim
  | havePiece _ _ _ _ hstage => exact (hnot (Or.inl hstage)).elim
  | choked _ _ _ _ _ hstage => exact (hnot (Or.inl hstage)).elim
  | unchoked _ _ _ _ hstage => exact (hnot (Or.inl hstage)).elim
  | starts _ _ _ _ _ _ _ hnext => exact (hnot (nextPiece_stage hnext)).elim
  | verifies _ _ _ _ _ _ hstage => rw [hstage] at hstage'; cases hstage'
  | fails _ _ _ _ _ _ _ _ _ hfinish => exact (hnot (finishPiece_stage hfinish)).elim
  | stores => exact Or.inl hstage'
  | writes =>
    obtain ⟨rfl, rfl⟩ := Stage.written.inj hstage'
    exact Or.inr (Finset.mem_insert_self _ _)
  | withdraws _ hp _ hstage =>
    refine Or.inl ?_
    rw [hp, ← hstage', hstage]
    rfl
  | finishes _ _ _ _ _ _ _ hfinish => exact (hnot (finishPiece_stage hfinish)).elim
  | leaves => exact (hnot (Or.inr rfl)).elim

/-- Only a task that writes does more to the session than marking pieces. -/
theorem Turn.effect (h : Turn sha1 kind a s t s' t') :
    Undisturbed s s' ∨ ∃ index spec assembled, t.point = .write index spec assembled ∧
      ((∃ k byte, assembled[k]? = some byte ∧
          s' = { s with storage := s.storage.set (spec.offset.toNat + k) byte }) ∨
        s' = { s with
          storage := flatWrite s.storage spec.offset.toNat assembled
          tracker := s.tracker.markHave index
          events := s.events ++ [.pieceVerified index] }) := by
  have hrefl : Undisturbed s s := ⟨Marks.refl _, rfl⟩
  cases h with
  | keeps hs => exact Or.inl hs.undisturbed
  | begins => exact Or.inl hrefl
  | cancelled => exact Or.inl hrefl
  | bitfield _ _ hs => exact Or.inl ((Undisturbed.updateAvailability s _).trans hs.undisturbed)
  | havePiece _ _ hs => exact Or.inl ((Undisturbed.updateAvailability s _).trans hs.undisturbed)
  | choked => exact Or.inl (.markFailed s _)
  | unchoked => exact Or.inl hrefl
  | starts _ _ _ _ _ _ _ hnext => exact Or.inl (nextPiece_undisturbed hnext)
  | verifies => exact Or.inl hrefl
  | fails _ _ _ _ _ _ _ _ _ hfinish =>
    exact Or.inl ((Undisturbed.markFailed s _).trans (finishPiece_undisturbed hfinish))
  | stores _ hp hbyte => exact Or.inr ⟨_, _, _, hp, Or.inl ⟨_, _, hbyte, rfl⟩⟩
  | writes _ hp => exact Or.inr ⟨_, _, _, hp, Or.inr rfl⟩
  | withdraws => exact Or.inl ⟨Marks.refl _, rfl⟩
  | finishes _ _ htr hst _ _ _ hfinish =>
    have hundisturbed := finishPiece_undisturbed hfinish
    refine Or.inl ⟨?_, hundisturbed.storage.trans hst⟩
    rw [← htr]
    exact hundisturbed.marks
  | leaves => exact Or.inl (cleanup_undisturbed s _)

theorem Turn.got_subset (h : Turn sha1 kind a s t s' t') : s.tracker.got ⊆ s'.tracker.got := by
  rcases h.effect with hs | ⟨index, spec, assembled, -, ⟨k, byte, -, rfl⟩ | rfl⟩
  · rw [hs.marks.got]
  · exact Finset.Subset.refl _
  · exact Finset.subset_insert _ _

theorem Turn.specs_length (h : Turn sha1 kind a s t s' t')
    (hspecs : s.tracker.specs.length = s.tracker.pieceCount.toNat) :
    s'.tracker.specs.length = s'.tracker.pieceCount.toNat := by
  rcases h.effect with hs | ⟨index, spec, assembled, -, ⟨k, byte, -, rfl⟩ | rfl⟩
  · rw [hs.marks.specs, hs.marks.pieceCount]
    exact hspecs
  · exact hspecs
  · exact hspecs

theorem Turn.pieceCount (h : Turn sha1 kind a s t s' t') :
    s'.tracker.pieceCount = s.tracker.pieceCount := by
  rcases h.effect with hs | ⟨index, spec, assembled, -, ⟨k, byte, -, rfl⟩ | rfl⟩
  · exact hs.marks.pieceCount
  · rfl
  · rfl

theorem nextPiece_pieces {i : ℕ} (h : nextPiece hint s t = (s', t')) (hi : i ∈ s'.endgame.pieces) :
    i ∈ s.endgame.pieces ∨ i < s.tracker.pieceCount.toNat := by
  obtain ⟨tr, eg, started, hstart, hcases⟩ := nextPiece_cases h
  have heg : eg = (startPiece hint s.tracker s.endgame t).2.1 := by rw [hstart]
  apply startPiece_pieces
  rw [← heg]
  rcases hcases with ⟨-, rfl, -⟩ | ⟨_, _, -, rfl, -⟩ | ⟨-, rfl, -⟩
  · exact hi
  · exact hi
  · simp only [cleanup] at hi
    split at hi
    · exact hi
    · exact hi

theorem finishPiece_pieces {i : ℕ} (h : finishPiece hint s t = (s', t'))
    (hi : i ∈ s'.endgame.pieces) : i ∈ s.endgame.pieces ∨ i < s.tracker.pieceCount.toNat := by
  rcases finishPiece_cases h with ⟨-, rfl, -⟩ | ⟨-, -, rfl, -⟩ | ⟨-, -, hnext⟩
  · exact Or.inl hi
  · exact Or.inl hi
  · exact nextPiece_pieces hnext hi

theorem Turn.pieces {i : ℕ} (h : Turn sha1 kind a s t s' t') (hi : i ∈ s'.endgame.pieces) :
    i ∈ s.endgame.pieces ∨ i < s.tracker.pieceCount.toNat := by
  cases h with
  | keeps hs => exact Or.inl (hs.endgame ▸ hi)
  | bitfield _ _ hs => exact Or.inl (hs.endgame ▸ hi)
  | havePiece _ _ hs => exact Or.inl (hs.endgame ▸ hi)
  | starts _ _ _ _ _ _ _ hnext => exact nextPiece_pieces hnext hi
  | fails _ _ _ _ _ _ _ _ _ hfinish =>
    rcases finishPiece_pieces hfinish hi with hi | hi
    · exact Or.inl hi
    · exact Or.inr hi
  | withdraws => exact Or.inl (Finset.mem_of_mem_erase hi)
  | finishes _ _ htr _ _ _ hendgame hfinish =>
    rw [← htr]
    rcases finishPiece_pieces hfinish hi with hi | hi
    · rcases hendgame with hsame | hdone
      · exact Or.inl (hsame ▸ hi)
      · rw [hdone] at hi
        exact Or.inl (Finset.mem_of_mem_erase hi)
    · exact Or.inr hi
  | leaves =>
    simp only [cleanup] at hi
    split at hi
    · exact Or.inl hi
    · exact Or.inl hi
  | _ => exact Or.inl hi

theorem nextPiece_addr (h : nextPiece hint s t = (s', t')) : t'.addr = t.addr := by
  obtain ⟨tr, eg, started, -, hcases⟩ := nextPiece_cases h
  rcases hcases with ⟨-, -, rfl⟩ | ⟨idx, spec, -, -, rfl⟩ | ⟨-, -, rfl⟩
  · rfl
  · exact (samePieces_requestFrom (t.takePiece idx spec) spec 0).1.addr
  · rfl

theorem finishPiece_addr (h : finishPiece hint s t = (s', t')) : t'.addr = t.addr := by
  rcases finishPiece_cases h with ⟨-, -, rfl⟩ | ⟨-, -, -, rfl⟩ | ⟨-, -, hnext⟩
  · rfl
  · rfl
  · have haddr := nextPiece_addr hnext
    exact haddr

theorem Turn.addr (h : Turn sha1 kind a s t s' t') : t'.addr = t.addr := by
  cases h with
  | keeps _ ht => exact ht.addr
  | bitfield _ _ _ ht => exact ht.addr
  | havePiece _ _ _ ht => exact ht.addr
  | choked _ _ _ ht => exact ht.addr
  | unchoked _ _ _ ht => exact ht.addr
  | starts _ _ _ _ ht _ _ hnext => exact (nextPiece_addr hnext).trans ht.addr
  | verifies _ _ _ _ _ ht => exact ht.addr
  | fails _ _ _ _ _ _ _ ht _ hfinish => exact (finishPiece_addr hfinish).trans ht.addr
  | withdraws _ _ ht => exact ht.addr
  | finishes _ _ _ _ _ _ _ hfinish => exact finishPiece_addr hfinish
  | leaves _ _ ht => exact ht.addr
  | _ => rfl

def counts (s : Session) : ℤ × ℤ := (s.bytesDownloaded, s.bytesUploaded)

theorem nextPiece_counts (hint : ℕ) (s : Session) (t : Task) :
    counts (nextPiece hint s t).1 = counts s := by
  unfold nextPiece
  split <;> rfl

theorem finishPiece_counts (hint : ℕ) (s : Session) (t : Task) :
    counts (finishPiece hint s t).1 = counts s := by
  unfold finishPiece
  split
  · rfl
  · split
    · rfl
    · exact nextPiece_counts hint s _

theorem announced_counts (s : Session) (t : Task) (interest : Bool) :
    counts (announced s t interest).1 = counts s := by
  unfold announced
  split <;> rfl

theorem onRequest_counts (s : Session) (t : Task) (index begin length : ℕ) :
    counts (onRequest s t index begin length).1 = counts s := by
  unfold onRequest
  split
  · rfl
  · split
    · split <;> rfl
    · rfl

theorem onBlock_counts (hint : ℕ) (s : Session) (t : Task) (index begin : ℕ) (block : Bytes) :
    counts (onBlock sha1 hint s t index begin block).1 = counts s := by
  simp only [onBlock]
  split
  · rfl
  · split
    · split
      · rfl
      · split
        · rfl
        · exact finishPiece_counts hint _ _
    · rfl

theorem onMessage_counts (hint : ℕ) (s : Session) (t : Task) (msg : Message) :
    counts (onMessage sha1 hint s t msg).1 = counts s := by
  cases msg with
  | bitfield data => exact announced_counts _ _ _
  | havePiece index => exact announced_counts _ _ _
  | interested =>
    simp only [onMessage]
    split <;> rfl
  | choke =>
    simp only [onMessage]
    split <;> rfl
  | unchoke =>
    simp only [onMessage]
    split
    · exact nextPiece_counts hint s _
    · rfl
  | request index begin length => exact onRequest_counts s _ index begin length
  | piece index begin block =>
    simp only [onMessage]
    split
    · exact onBlock_counts hint s _ index begin block
    · rfl
  | _ => rfl

theorem cancelFrom_counts (hint : ℕ) (s : Session) (t : Task) (index : ℕ) (spec : PieceSpec)
    (addrs : Finset Address) (offset : ℕ) :
    counts (cancelFrom hint s t index spec addrs offset).1 = counts s := by
  unfold cancelFrom
  split
  · rfl
  · exact finishPiece_counts hint s t

theorem afterHave_counts (hint : ℕ) (s : Session) (t : Task) (index : ℕ) (spec : PieceSpec) :
    counts (afterHave hint s t index spec).1 = counts s := by
  unfold afterHave
  split
  · exact cancelFrom_counts hint _ t index spec _ 0
  · exact finishPiece_counts hint s t

theorem resume_counts (hp : t.point ≠ .disconnect) (h : resume kind hint s t = some (s', t')) :
    counts s' = counts s := by
  unfold resume at h
  split at h
  case h_5 =>
    split at h
    · cases h
    · split at h
      · obtain ⟨rfl, rfl⟩ := Prod.mk.inj (Option.some.inj h)
        rfl
      · obtain ⟨rfl, rfl⟩ := Prod.mk.inj (Option.some.inj h)
        rfl
  case h_9 index spec _ =>
    rw [← (Prod.mk.inj (Option.some.inj (h.trans rfl))).1]
    exact afterHave_counts hint s t index spec
  case h_12 hpoint => exact absurd hpoint hp
  case h_13 => cases h
  all_goals
    obtain ⟨rfl, rfl⟩ := Prod.mk.inj (Option.some.inj h)
    rfl

theorem cancelStep_counts {addr : Address} {connected : Bool}
    (h : cancelStep addr connected hint s t = some (s', t')) :
    counts s' = counts s := by
  unfold cancelStep at h
  split at h
  · split at h
    · simp only at h
      split at h
      · rw [← (Prod.mk.inj (Option.some.inj h)).1]
        split <;> rfl
      · rw [← (Prod.mk.inj (Option.some.inj (h.trans rfl))).1]
        refine (cancelFrom_counts hint _ t _ _ _ _).trans ?_
        split <;> rfl
    · cases h
  · cases h

/-- Only a task whose connection is closed down changes the counters. -/
theorem taskStep_counts (hp : t.point ≠ .disconnect)
    (h : taskStep sha1 kind a s t = some (s', t')) : counts s' = counts s := by
  cases a with
  | starts =>
    simp only [taskStep] at h
    split at h
    · split at h
      · obtain ⟨rfl, rfl⟩ := Prod.mk.inj (Option.some.inj h)
        rfl
      · obtain ⟨rfl, rfl⟩ := Prod.mk.inj (Option.some.inj h)
        rfl
    · cases h
  | receives msg hint =>
    simp only [taskStep] at h
    split at h
    · rw [← (Prod.mk.inj (Option.some.inj (h.trans rfl))).1]
      exact onMessage_counts hint s t msg
    · cases h
  | returns hint => exact resume_counts hp h
  | raises =>
    simp only [taskStep] at h
    split at h
    · obtain ⟨rfl, rfl⟩ := Prod.mk.inj (Option.some.inj h)
      rfl
    · next hpoint => exact absurd hpoint hp
    · cases h
    · obtain ⟨rfl, rfl⟩ := Prod.mk.inj (Option.some.inj h)
      rfl
  | fetches =>
    simp only [taskStep] at h
    split at h
    · obtain ⟨byte, -, heq⟩ := Option.map_eq_some_iff.mp h
      obtain ⟨rfl, rfl⟩ := Prod.mk.inj heq
      rfl
    · cases h
  | stores k =>
    simp only [taskStep] at h
    split at h
    · obtain ⟨byte, -, heq⟩ := Option.map_eq_some_iff.mp h
      obtain ⟨rfl, rfl⟩ := Prod.mk.inj heq
      rfl
    · cases h
  | cancels addr connected hint => exact cancelStep_counts h
  | rechokes amChoking =>
    simp only [taskStep] at h
    split at h
    · cases h
    · obtain ⟨rfl, rfl⟩ := Prod.mk.inj (Option.some.inj h)
      rfl

end EngineTurns
