import Aiobt.SeededClients

/-! # What is left to do for a task

Each step of a task uses up more of what is left to do than it makes, unless it starts a piece or is
done with one. -/
namespace TaskEffort

open ByteStrings PieceTracker PeerMessages PieceEngine SessionTasks PieceSearch EngineTurns
open BlockTransfer TransferTurns PeerRuns PeerExceptions Swarms SeedSteps SeededClients

variable {sha1 : Bytes → Bytes} {kind : StorageKind} {specs : List PieceSpec} {a : Action}
  {hint : ℕ} {s s₁ s' : Session} {t t₁ t' : Task} {msg : Message}

/-- What a message may give rise to, at both ends. -/
def weight : Message → ℕ
  | .request _ _ length => length + 12
  | .piece _ _ _ => 9
  | .bitfield _ => 5
  | .havePiece _ => 5
  | .interested => 3
  | _ => 1

def weights (msgs : List Message) : ℕ := (msgs.map weight).sum

/-- What is left to do from a point until the task waits for a message again. -/
def effort : Await → ℕ
  | .starting => 7
  | .receive => 0
  | .sendRequest spec offset => 14 * (spec.length.toNat - offset) + 1
  | .read _ _ length _ data => length - data.length + 11
  | .write _ _ _ => 8
  | .emitVerified _ _ => 7
  | .sendCancel _ spec addrs offset left =>
    2 * ((spec.length.toNat - offset) * (addrs.card + 1) + left.card) + 1
  | .emitCompleted => 3
  | _ => 1

theorem weights_append (msgs more : List Message) : weights (msgs ++ more) = weights msgs + weights more := by
  rw [weights, List.map_append, List.sum_append]
  rfl

/-- What a task is about to do, and what is on its way to it, comes to less. -/
structure Spends (a : Action) (t t' : Task) : Prop where
  less : effort t'.point + weights (sentBy a t t') + weights (cancelledBy (.peer a) (.peer t)) <
    effort t.point + weights (takenBy (.peer a)).toList
  stays : cancelling t.point = true → cancelling t'.point = true

inductive Progress (a : Action) (s : Session) (t t' : Task) : Prop
  | spends : Spends a t t' → Progress a s t t'
  | starts {hint : ℕ} : a = .receives .unchoke hint → ¬ s.tracker.isComplete → t.currentPiece = none →
      Progress a s t t'
  | finishes {index : ℕ} {spec : PieceSpec} : stage t.point = .written index spec →
      cancelling t.point = false ∧ cancelling t'.point = true ∨ stage t'.point = .running →
      Progress a s t t'

theorem sentBy_eq {more : List Entry} (ha : ∀ amChoking, a ≠ .rechokes amChoking)
    (hlog : t'.log = t.log ++ heardBy a t ++ more) : sentBy a t t' = more.filterMap sentMessage := by
  have hnew : (t'.log.drop t.log.length).filterMap sentMessage = more.filterMap sentMessage := by
    rw [hlog, List.append_assoc, List.drop_left, List.filterMap_append]
    cases a <;> rfl
  cases a with
  | rechokes amChoking => exact absurd rfl (ha amChoking)
  | _ => exact hnew

theorem cancelledBy_nil (h : cancelling t.point = false) : cancelledBy (.peer a) (.peer t) = [] := by
  apply List.eq_nil_iff_forall_not_mem.mpr
  intro msg hm
  obtain ⟨index, spec, addrs, offset, left, hp, -⟩ := mem_cancelledBy hm
  rw [hp] at h
  cases h

theorem weights_cancelledBy (a : Action) (t : Task) : weights (cancelledBy (.peer a) (.peer t)) ≤ 1 := by
  unfold cancelledBy
  split
  · split
    · exact Nat.le_refl 1
    · exact Nat.zero_le 1
  · exact Nat.zero_le 1

theorem Spends.of_log (more : List Entry) (ha : ∀ amChoking, a ≠ .rechokes amChoking)
    (hlog : t'.log = t.log ++ heardBy a t ++ more) (hc : cancelling t.point = false)
    (hlt : effort t'.point + weights (more.filterMap sentMessage) <
      effort t.point + weights (takenBy (.peer a)).toList) : Spends a t t' where
  less := by
    rw [sentBy_eq ha hlog, cancelledBy_nil hc]
    exact hlt
  stays h := by
    rw [hc] at h
    cases h

/-- A step that logs nothing but what it takes. -/
theorem Spends.quiet (ha : ∀ amChoking, a ≠ .rechokes amChoking)
    (hlog : t'.log = t.log ++ heardBy a t) (hc : cancelling t.point = false)
    (hlt : effort t'.point < effort t.point + weights (takenBy (.peer a)).toList) : Spends a t t' :=
  .of_log [] ha (by rw [hlog, List.append_nil]) hc hlt

theorem not_rechokes {msg : Message} (ha : a = .receives msg hint) (amChoking : Bool) :
    a ≠ .rechokes amChoking := by
  rw [ha]
  simp

/-- Interest is expressed in the pieces of a peer, or nothing is done. -/
theorem announced_spends {interest : Bool} (ha : a = .receives msg hint) (hp : t.point = .receive)
    (hweight : 4 < weight msg) (hlog : t₁.log = t.log ++ heardBy a t)
    (hnext : announced s₁ t₁ interest = (s', t')) : Spends a t t' := by
  have hc : cancelling t.point = false := by rw [hp]; rfl
  have htaken : weights (takenBy (.peer a)).toList = weight msg := by
    rw [ha]
    rfl
  unfold announced at hnext
  split at hnext
  · obtain ⟨-, rfl⟩ := Prod.mk.inj hnext
    refine .of_log [.sent .interested] (not_rechokes ha) ?_ hc ?_
    · rw [← hlog]
      rfl
    · rw [htaken]
      show 1 + 3 < _
      omega
  · obtain ⟨-, rfl⟩ := Prod.mk.inj hnext
    refine .quiet (not_rechokes ha) hlog hc ?_
    rw [htaken]
    show 0 < _
    omega

/-- A block is stored; the piece is written if it is complete and right. -/
theorem onBlock_spends {index begin : ℕ} {block : Bytes}
    (ha : a = .receives (.piece index begin block) hint) (hp : t.point = .receive)
    (hcur : t.currentPiece = some index) (hlog : t₁.log = t.log ++ heardBy a t)
    (hblocks : t₁.pieceBlocks = t.pieceBlocks) (hspec : t₁.pieceSpec = t.pieceSpec)
    (hfine : failsHash sha1 t a = false) (hlive : Live t')
    (hnext : onBlock sha1 hint s t₁ index begin block = (s', t')) : Spends a t t' := by
  have hc : cancelling t.point = false := by rw [hp]; rfl
  have hquiet : ∀ point, effort point ≤ 8 → t' = ({ t₁ with
      pieceBlocks := setBlock t₁.pieceBlocks begin block }.countDown block.length).goto point →
      Spends a t t' := by
    rintro point hle rfl
    refine .quiet (not_rechokes ha) hlog hc ?_
    rw [ha]
    show effort point < effort t.point + 9
    omega
  unfold onBlock at hnext
  dsimp only [Task.countDown] at hnext
  split at hnext
  · exact hquiet .receive (Nat.zero_le 8) (Prod.mk.inj hnext).2.symm
  · next spec hsome =>
    rw [hspec] at hsome
    rw [hblocks] at hnext
    split at hnext
    · next hcomplete =>
      split at hnext
      · obtain ⟨-, rfl⟩ := Prod.mk.inj hnext
        exact absurd rfl hlive
      · next assembled hassembled =>
        split at hnext
        · rw [← hblocks] at hnext
          exact hquiet (.write index spec assembled) (Nat.le_refl 8) (Prod.mk.inj hnext).2.symm
        · next hverify =>
          have hwrong : failsHash sha1 t (.receives (.piece index begin block) hint) = true :=
            failsHash_receives hp hcur hsome hcomplete hassembled (by simpa using hverify)
          rw [ha, hwrong] at hfine
          cases hfine
    · rw [← hblocks] at hnext
      exact hquiet .receive (Nat.zero_le 8) (Prod.mk.inj hnext).2.symm

theorem onMessage_progress (ha : a = .receives msg hint) (hp : t.point = .receive)
    (hfine : failsHash sha1 t a = false) (hlive : Live t')
    (hnext : onMessage sha1 hint s t msg = (s', t')) : Progress a s t t' := by
  have hc : cancelling t.point = false := by rw [hp]; rfl
  have hlogs : ∀ t₁ : Task, t₁.log = t.log ++ [.received msg t.amChoking] →
      t₁.log = t.log ++ heardBy a t := by
    rintro t₁ hlog
    rw [hlog, ha]
    rfl
  have hstays : ∀ t₁ : Task, t₁.log = t.log ++ [.received msg t.amChoking] → t' = t₁.goto .receive →
      Progress a s t t' := by
    rintro t₁ hlog rfl
    refine .spends (.quiet (not_rechokes ha) (hlogs _ hlog) hc ?_)
    rw [ha]
    show 0 < effort t.point + weight msg
    cases msg <;> simp [weight]
  unfold onMessage at hnext
  cases msg with
  | keepAlive => exact hstays _ rfl (Prod.mk.inj hnext).2.symm
  | bitfield data =>
    refine .spends (announced_spends ha hp (Nat.lt_succ_self 4) ?_ hnext)
    exact hlogs _ rfl
  | havePiece index =>
    refine .spends (announced_spends ha hp (Nat.lt_succ_self 4) ?_ hnext)
    exact hlogs _ rfl
  | interested =>
    simp only at hnext
    split at hnext
    · exact hstays _ rfl (Prod.mk.inj hnext).2.symm
    · obtain ⟨-, rfl⟩ := Prod.mk.inj hnext
      refine .spends (.of_log [.sent .unchoke] (not_rechokes ha) ?_ hc ?_)
      · rw [ha]
        rfl
      · rw [ha]
        show 1 + 1 < effort t.point + 3
        omega
  | notInterested => exact hstays _ rfl (Prod.mk.inj hnext).2.symm
  | choke =>
    simp only at hnext
    split at hnext
    · exact hstays _ rfl (Prod.mk.inj hnext).2.symm
    · obtain ⟨-, rfl⟩ := Prod.mk.inj hnext
      exact hstays _ rfl rfl
  | unchoke =>
    simp only at hnext
    split at hnext
    · next hstarts => exact .starts ha hstarts.1 hstarts.2
    · exact hstays _ rfl (Prod.mk.inj hnext).2.symm
  | request index begin length =>
    unfold onRequest at hnext
    simp only at hnext
    split at hnext
    · exact hstays _ rfl (Prod.mk.inj hnext).2.symm
    · split at hnext
      · split at hnext
        · obtain ⟨-, rfl⟩ := Prod.mk.inj hnext
          exact absurd rfl hlive
        · next spec _ =>
          obtain ⟨-, rfl⟩ := Prod.mk.inj hnext
          refine .spends (.of_log [.read (spec.offset + begin) length] (not_rechokes ha) ?_ hc ?_)
          · rw [ha]
            rfl
          · rw [ha]
            show length - 0 + 11 + 0 < effort t.point + (length + 12)
            omega
      · exact hstays _ rfl (Prod.mk.inj hnext).2.symm
  | piece index begin block =>
    simp only at hnext
    split at hnext
    · next hcur =>
      refine .spends (onBlock_spends ha hp hcur ?_ ?_ ?_ hfine hlive hnext)
      · exact hlogs _ rfl
      · rfl
      · rfl
    · exact hstays _ rfl (Prod.mk.inj hnext).2.symm
  | cancel index begin length => exact hstays _ rfl (Prod.mk.inj hnext).2.symm

theorem requestFrom_less (t : Task) (spec : PieceSpec) (offset : ℕ) :
    effort (requestFrom t spec (offset + blockLen spec offset)).point +
        weights (((requestFrom t spec (offset + blockLen spec offset)).log.drop t.log.length).filterMap
          sentMessage) < effort (.sendRequest spec offset) := by
  unfold requestFrom
  split
  · next hlt =>
    obtain ⟨hpos, -, hle⟩ := blockLen_spec (show (offset : ℤ) < spec.length by omega)
    have hnext : blockLen spec (offset + blockLen spec offset) ≤ blockLen spec offset := by
      simp only [blockLen]
      omega
    simp only [Task.send, List.drop_left, List.filterMap_cons, sentMessage, List.filterMap_nil, weights,
      List.map_cons, List.map_nil, List.sum_singleton, weight, effort]
    omega
  · simp only [Task.goto, List.drop_length, List.filterMap_nil, weights, List.map_nil, List.sum_nil,
      effort]
    omega

theorem finishPiece_running (hlive : Live t') (h : finishPiece hint s₁ t₁ = (s', t')) :
    stage t'.point = .running := (finishPiece_stage h).resolve_right hlive

theorem resume_progress (hlive : Live t') (h : resume kind hint s t = some (s', t')) :
    Progress (.returns hint) s t t' := by
  have hquiet : cancelling t.point = false → t'.log = t.log → effort t'.point < effort t.point →
      Progress (.returns hint) s t t' := fun hc hlog hlt =>
    .spends (.quiet (by simp) (by rw [hlog]; exact (List.append_nil _).symm) hc hlt)
  have hsays : ∀ msg, cancelling t.point = false → t'.log = t.log ++ [.sent msg] →
      effort t'.point + weight msg < effort t.point → Progress (.returns hint) s t t' :=
    fun msg hc hlog hlt => .spends (.of_log [.sent msg] (by simp)
      (by simp [hlog, heardBy]) hc hlt)
  unfold resume at h
  split at h
  case h_1 hp =>
    obtain ⟨rfl, rfl⟩ := Prod.mk.inj (Option.some.inj h)
    exact hquiet (by rw [hp]; rfl) rfl (by rw [hp]; exact Nat.one_pos)
  case h_2 hp =>
    obtain ⟨rfl, rfl⟩ := Prod.mk.inj (Option.some.inj h)
    exact hquiet (by rw [hp]; rfl) rfl (by rw [hp]; exact Nat.one_pos)
  case h_3 hp =>
    obtain ⟨rfl, rfl⟩ := Prod.mk.inj (Option.some.inj h)
    exact hquiet (by rw [hp]; rfl) rfl (by rw [hp]; exact Nat.one_pos)
  case h_4 spec offset hp =>
    obtain ⟨rfl, rfl⟩ := Prod.mk.inj (Option.some.inj h)
    refine .spends ⟨?_, fun hc => ?_⟩
    · rw [cancelledBy_nil (by rw [hp]; rfl), hp]
      exact requestFrom_less t spec offset
    · rw [hp] at hc
      cases hc
  case h_5 index begin length offset data hp =>
    split at h
    · cases h
    · split at h
      · obtain ⟨rfl, rfl⟩ := Prod.mk.inj (Option.some.inj h)
        exact absurd rfl hlive
      · obtain ⟨rfl, rfl⟩ := Prod.mk.inj (Option.some.inj h)
        refine hsays _ (by rw [hp]; rfl) rfl ?_
        rw [hp]
        show 1 + 9 < length - data.length + 11
        omega
  case h_6 size hp =>
    obtain ⟨rfl, rfl⟩ := Prod.mk.inj (Option.some.inj h)
    exact hquiet (by rw [hp]; rfl) rfl (by rw [hp]; exact Nat.one_pos)
  case h_7 index spec assembled hp =>
    obtain ⟨rfl, rfl⟩ := Prod.mk.inj (Option.some.inj h)
    exact hquiet (by rw [hp]; rfl) rfl (by rw [hp]; exact Nat.lt_succ_self 7)
  case h_8 index spec hp =>
    obtain ⟨rfl, rfl⟩ := Prod.mk.inj (Option.some.inj h)
    exact hsays _ (by rw [hp]; rfl) rfl (by rw [hp]; exact Nat.lt_succ_self 6)
  case h_9 index spec hp =>
    have hstage : stage t.point = .written index spec := by rw [hp]; rfl
    have h := Option.some.inj h
    unfold afterHave cancelFrom at h
    split at h
    · simp only at h
      split at h
      · obtain ⟨-, rfl⟩ := Prod.mk.inj h
        exact .finishes hstage (Or.inl ⟨by rw [hp]; rfl, rfl⟩)
      · exact .finishes hstage (Or.inr (finishPiece_running hlive h))
    · exact .finishes hstage (Or.inr (finishPiece_running hlive h))
  case h_10 hp =>
    obtain ⟨rfl, rfl⟩ := Prod.mk.inj (Option.some.inj h)
    exact hsays _ (by rw [hp]; rfl) rfl (by rw [hp]; exact Nat.lt_succ_self 2)
  case h_11 hp =>
    obtain ⟨rfl, rfl⟩ := Prod.mk.inj (Option.some.inj h)
    exact hquiet (by rw [hp]; rfl) rfl (by rw [hp]; exact Nat.one_pos)
  case h_12 hp =>
    obtain ⟨rfl, rfl⟩ := Prod.mk.inj (Option.some.inj h)
    exact absurd rfl hlive
  case h_13 => cases h

theorem cancelStep_progress {addr : Address} {connected : Bool} (hpoint : PointOk specs t.point)
    (hlive : Live t') (h : cancelStep addr connected hint s t = some (s', t')) :
    Progress (.cancels addr connected hint) s t t' := by
  unfold cancelStep at h
  split at h
  · next index spec addrs offset left hp =>
    have hbefore : (offset : ℤ) < spec.length := by
      rw [hp] at hpoint
      exact hpoint.2.1
    have hspends : ∀ offset' left', (spec.length.toNat - offset') * (addrs.card + 1) + left'.card <
        (spec.length.toNat - offset) * (addrs.card + 1) + left.card →
        t' = t.goto (.sendCancel index spec addrs offset' left') →
        Progress (.cancels addr connected hint) s t t' := by
      rintro offset' left' hlt rfl
      refine .spends ⟨?_, fun _ => rfl⟩
      have hsent : sentBy (.cancels addr connected hint) t
          (t.goto (.sendCancel index spec addrs offset' left')) = [] := by
        simp [sentBy, Task.goto]
      have hone := weights_cancelledBy (.cancels addr connected hint) t
      rw [hsent, hp]
      simp only [Task.goto, effort, weights, List.map_nil, List.sum_nil, takenBy, Option.toList] at hone ⊢
      omega
    split at h
    · next hmem =>
      simp only at h
      split at h
      · obtain ⟨-, rfl⟩ := Prod.mk.inj (Option.some.inj h)
        refine hspends offset (left.erase addr) ?_ rfl
        exact Nat.add_lt_add_left (Finset.card_erase_lt_of_mem hmem) _
      · have h := Option.some.inj h
        unfold cancelFrom at h
        split at h
        · obtain ⟨-, rfl⟩ := Prod.mk.inj h
          refine hspends (offset + blockLen spec offset) addrs ?_ rfl
          obtain ⟨hpos, -, hle⟩ := blockLen_spec hbefore
          have hfewer : spec.length.toNat - (offset + blockLen spec offset) + 1 ≤
              spec.length.toNat - offset := by omega
          have hmul := Nat.mul_le_mul_right (addrs.card + 1) hfewer
          rw [Nat.add_mul, Nat.one_mul] at hmul
          omega
        · exact .finishes (by rw [hp]; rfl) (Or.inr (finishPiece_running hlive h))
    · cases h
  · cases h

/-- Every step by which a task goes on, unless a piece is found to be wrong. -/
theorem progress_of_step (hadvances : advances a = true)
    (hpoint : PointOk specs t.point) (hfine : failsHash sha1 t a = false)
    (hlive : Live t') (h : taskStep sha1 kind a s t = some (s', t')) : Progress a s t t' := by
  cases a with
  | starts =>
    simp only [taskStep] at h
    split at h
    · next hp =>
      split at h
      · obtain ⟨rfl, rfl⟩ := Prod.mk.inj (Option.some.inj h)
        exact absurd rfl hlive
      · next data _ =>
        obtain ⟨rfl, rfl⟩ := Prod.mk.inj (Option.some.inj h)
        refine .spends (.of_log [.sent (.bitfield data)] (by simp) ?_ (by rw [hp]; rfl) ?_)
        · simp [Task.send, heardBy]
        · rw [hp]
          exact Nat.lt_succ_self 6
    · cases h
  | receives msg hint =>
    simp only [taskStep] at h
    split at h
    · next hp => exact onMessage_progress rfl hp hfine hlive (Option.some.inj h)
    · cases h
  | returns hint => exact resume_progress hlive h
  | raises => cases hadvances
  | fetches =>
    simp only [taskStep] at h
    split at h
    · next index begin length offset data hp =>
      obtain ⟨byte, hbyte, heq⟩ := Option.map_eq_some_iff.mp h
      obtain ⟨rfl, rfl⟩ := Prod.mk.inj heq
      have hlt : data.length < length := by
        unfold fetchByte at hbyte
        split at hbyte
        · omega
        · cases hbyte
      refine .spends (.quiet (by simp) (List.append_nil _).symm (by rw [hp]; rfl) ?_)
      rw [hp]
      simp only [Task.goto, effort, List.length_append, List.length_singleton]
      omega
    · cases h
  | stores k => cases hadvances
  | cancels addr connected hint => exact cancelStep_progress hpoint hlive h
  | rechokes amChoking => cases hadvances

def openPieces (specs : List PieceSpec) (s : Session) (t : Task) : Finset ℕ :=
  (Finset.range specs.length).filter fun i => i ∉ s.tracker.got ∨ t.currentPiece = some i

/-- A piece that a task fetches is missing when it is started. -/
theorem current_cases (h : Transfer a s t t') {i : ℕ} (hi : t'.currentPiece = some i) :
    t.currentPiece = some i ∨ i ∉ s.tracker.got := by
  cases h with
  | keeps hkept => exact Or.inl (hkept.same.currentPiece ▸ hi)
  | drops _ hnone _ => cases hnone.symm.trans hi
  | learns _ hsame _ _ => exact Or.inl (hsame.currentPiece ▸ hi)
  | hears _ hsame _ _ => exact Or.inl (hsame.currentPiece ▸ hi)
  | starts _ hlacks _ _ hcur _ _ _ _ =>
    obtain rfl := Option.some.inj (hcur.symm.trans hi)
    exact Or.inr hlacks
  | asks _ hsame _ _ _ => exact Or.inl (hsame.currentPiece ▸ hi)
  | gets _ _ hsame _ _ => exact Or.inl (hsame.currentPiece ▸ hi)

theorem openPieces_subset (h : taskStep sha1 kind a s t = some (s', t')) :
    openPieces specs s' t' ⊆ openPieces specs s t := by
  intro i hi
  obtain ⟨hrange, hopen⟩ := Finset.mem_filter.mp hi
  refine Finset.mem_filter.mpr ⟨hrange, ?_⟩
  rcases hopen with hlacks | hcur
  · exact Or.inl fun hgot => hlacks ((turn_of_step h).got_subset hgot)
  · exact (current_cases (worked_of_step h).transfer hcur).symm

/-- A task that is done with a piece that it has written does not take it up again. -/
theorem current_ne {index : ℕ} {spec : PieceSpec} (h : taskStep sha1 kind a s t = some (s', t'))
    (hwritten : stage t.point = .written index spec) (hgot : index ∈ s.tracker.got)
    (hrunning : stage t'.point = .running) : t'.currentPiece ≠ some index := by
  intro hcur
  have hreceives : ∀ {msg hint}, a ≠ .receives msg hint := by
    rintro msg hint rfl
    rw [point_of_receives h] at hwritten
    cases hwritten
  cases (worked_of_step h).transfer with
  | keeps hkept =>
    rcases hkept.running hrunning with hs | hs
    · cases hs.symm.trans hwritten
    · cases hs.symm.trans hwritten
  | drops _ hnone _ => cases hnone.symm.trans hcur
  | learns ha _ _ _ => exact hreceives ha
  | hears ha _ _ _ => exact hreceives ha
  | starts _ hlacks _ _ hcur' _ _ _ _ =>
    obtain rfl := Option.some.inj (hcur'.symm.trans hcur)
    exact hlacks hgot
  | asks hp _ _ _ _ =>
    rw [hp] at hwritten
    cases hwritten
  | gets ha _ _ _ _ => exact hreceives ha

theorem openPieces_ssubset {index : ℕ} {spec : PieceSpec}
    (h : taskStep sha1 kind a s t = some (s', t')) (hok : TaskOk sha1 specs t)
    (hwritten : stage t.point = .written index spec) (hgot : index ∈ s.tracker.got)
    (hrunning : stage t'.point = .running) : openPieces specs s' t' ⊂ openPieces specs s t := by
  obtain ⟨hcur, hat⟩ := hok.written index spec hwritten
  have hrange := Finset.mem_range.mpr (List.getElem?_eq_some_iff.mp hat).1
  apply (Finset.ssubset_iff_of_subset (openPieces_subset h)).mpr
  refine ⟨index, Finset.mem_filter.mpr ⟨hrange, Or.inr hcur⟩, fun hmem => ?_⟩
  rcases (Finset.mem_filter.mp hmem).2 with hlacks | hcur'
  · exact hlacks ((turn_of_step h).got_subset hgot)
  · exact current_ne h hwritten hgot hrunning hcur'

/-- What is left of the pieces: a piece counts for less once its Cancel messages are sent. -/
def remaining (specs : List PieceSpec) (s : Session) (t : Task) : ℕ :=
  2 * (openPieces specs s t).card - if cancelling t.point then 1 else 0

theorem remaining_le (h : taskStep sha1 kind a s t = some (s', t'))
    (hstays : cancelling t.point = true → cancelling t'.point = true) :
    remaining specs s' t' ≤ remaining specs s t := by
  have hsub : openPieces specs s' t' ⊆ openPieces specs s t := openPieces_subset h
  have hle := Finset.card_le_card hsub
  unfold remaining
  split
  · split
    · omega
    · omega
  · next hnot =>
    rw [if_neg fun hc => hnot (hstays hc)]
    omega

theorem remaining_lt {index : ℕ} {spec : PieceSpec} (h : taskStep sha1 kind a s t = some (s', t'))
    (hok : TaskOk sha1 specs t) (hwritten : stage t.point = .written index spec)
    (hgot : index ∈ s.tracker.got)
    (hcases : cancelling t.point = false ∧ cancelling t'.point = true ∨ stage t'.point = .running) :
    remaining specs s' t' < remaining specs s t := by
  obtain ⟨hcur, hat⟩ := hok.written index spec hwritten
  have hopen : index ∈ openPieces specs s t := by
    refine Finset.mem_filter.mpr ⟨?_, Or.inr hcur⟩
    exact Finset.mem_range.mpr (List.getElem?_eq_some_iff.mp hat).1
  have hpos := Finset.card_pos.mpr ⟨index, hopen⟩
  rcases hcases with ⟨hbefore, hafter⟩ | hrunning
  · have hsub : openPieces specs s' t' ⊆ openPieces specs s t := openPieces_subset h
    have hle := Finset.card_le_card hsub
    rw [remaining, remaining, hbefore, hafter]
    simp only [if_true, Bool.false_eq_true, if_false]
    omega
  · have hlt := Finset.card_lt_card (openPieces_ssubset h hok hwritten hgot hrunning)
    unfold remaining
    split
    · split
      · omega
      · omega
    · split
      · omega
      · omega

end TaskEffort
