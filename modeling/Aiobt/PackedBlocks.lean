import Aiobt.BlockTransfer
import Aiobt.PeerExceptions

/-! # Requests and Cancels that are packed

The two loops that send messages about the blocks of a piece, each message packed by `to_bytes`
before it is sent. -/
namespace PackedBlocks

open ByteStrings PieceTracker PeerMessages PieceEngine WireFraming Tilings BlockTransfer PeerWrapper
open PeerExceptions

variable {sha1 : Bytes → Bytes} {kind : StorageKind} {spec : PieceSpec} {n offset : ℕ}
  {inside : Await → Bool} {s s' : Session} {t t' : Task} {w w' : Wrapper} {wire : Bytes}
  {failure : Exn} {msg : Message} {a : PeerWrapper.Action}
  {steps : List (PeerWrapper.Action × List (Address × Message))}

/-- `run_peer` goes through points of one kind and raises nothing; between its steps other tasks may
change the session. What it adds to the Cancel messages is recorded. -/
inductive Completes (sha1 : Bytes → Bytes) (kind : StorageKind) (inside : Await → Bool) :
    Wrapper → List (PeerWrapper.Action × List (Address × Message)) → Wrapper → Prop
  | leaves {w : Wrapper} : inside w.task.point = false → Completes sha1 kind inside w [] w
  | pass {a : PeerWrapper.Action} {s s' : Session} {w w' : Wrapper} {t' : Task} {wire : Bytes}
      {sent rest} : inside w.task.point = true →
      runPeer sha1 kind a s w = some ((s', t', none), wire) → s'.cancels = s.cancels ++ sent →
      Completes sha1 kind inside { w with task := t', wire := wire } rest w' →
      Completes sha1 kind inside w ((a, sent) :: rest) w'

/-- `_request_piece_blocks`, from its first message to its return. -/
def Requests (sha1 : Bytes → Bytes) (kind : StorageKind) (spec : PieceSpec) (w : Wrapper)
    (steps : List (PeerWrapper.Action × List (Address × Message))) (w' : Wrapper) : Prop :=
  raisedBy w.task (requestFrom w.task spec 0) .other = none ∧
    Completes sha1 kind requesting { w with task := requestFrom w.task spec 0 } steps w'

theorem settle_none {next : Session × Task} (h : settle t failure next = (s', t', none)) :
    next = (s', t') ∧ raisedBy t t' failure = none := by
  unfold settle at h
  split at h
  · cases h
  · obtain ⟨rfl, hrest⟩ := Prod.mk.inj h
    obtain ⟨rfl, hnone⟩ := Prod.mk.inj hrest
    exact ⟨rfl, hnone⟩

theorem raisedBy_send {point : Await} (hpoint : point ≠ .disconnect) :
    raisedBy t (t.send msg point) failure = none ↔ packs msg = true := by
  have hsending : sending t (t.send msg point) = some msg := by
    simp [sending, Task.send]
  rw [raisedBy, hsending]
  cases hpacks : packs msg with
  | true => simp [Task.send, hpoint, hpacks]
  | false => simp [hpacks]

theorem raisedBy_same (hlog : t'.log = t.log) (hpoint : t'.point ≠ .disconnect) :
    raisedBy t t' failure = none := by
  simp [raisedBy, sending, hlog, hpoint]

theorem raisedBy_requestFrom : raisedBy t (requestFrom t spec offset) failure = none ↔
    ((offset : ℤ) < spec.length →
      packs (requestOf spec (offset, blockLen spec offset)) = true) := by
  unfold requestFrom
  split
  · next hlt =>
    rw [raisedBy_send (by simp)]
    exact ⟨fun h _ => h, fun h => h hlt⟩
  · next hlt =>
    have hnone : raisedBy t (t.goto .receive) failure = none := raisedBy_same rfl (by simp [Task.goto])
    exact ⟨fun _ h => absurd h hlt, fun _ => hnone⟩

def engineAction : PeerWrapper.Action → PieceEngine.Action
  | .returns hint => .returns hint
  | .cancels addr connected hint => .cancels addr connected hint
  | .rechokes amChoking => .rechokes amChoking
  | _ => .starts

theorem engineAction_cancels {addr : Address} {connected : Bool} {hint : ℕ}
    (h : engineAction a = .cancels addr connected hint) : a = .cancels addr connected hint := by
  cases a with
  | cancels addr' connected' hint' =>
    obtain ⟨rfl, rfl, rfl⟩ := PieceEngine.Action.cancels.inj h
    rfl
  | _ => cases h

/-- At the points of both loops a step of `run_peer` that raises nothing is a step of the engine. -/
theorem engine_of_run (hin : requesting w.task.point = true ∨ cancelling w.task.point = true)
    (h : runPeer sha1 kind a s w = some ((s', t', none), wire)) :
    engineAction a ≠ .raises ∧ taskStep sha1 kind (engineAction a) s w.task = some (s', t') ∧
      (requesting w.task.point = true → raisedBy w.task t' .other = none) := by
  have hother : failureOf w.task = .other := by
    unfold failureOf
    cases hp : w.task.point with
    | read => rw [hp] at hin; rcases hin with hno | hno <;> cases hno
    | _ => rfl
  cases a with
  | returns hint =>
    simp only [runPeer] at h
    split at h
    · cases h
    · obtain ⟨next, hresume, heq⟩ := Option.map_eq_some_iff.mp h
      obtain ⟨rfl, hraised⟩ := settle_none (Prod.mk.inj heq).1
      rw [hother] at hraised
      exact ⟨by simp [engineAction], hresume, fun _ => hraised⟩
  | cancels addr connected hint =>
    obtain ⟨next, hbroadcast, heq⟩ := Option.map_eq_some_iff.mp h
    obtain ⟨rfl, -⟩ := Prod.mk.inj heq
    unfold broadcast at hbroadcast
    split at hbroadcast
    · next hp =>
      split at hbroadcast
      · cases hbroadcast
      · obtain ⟨next, hcancel, heq⟩ := Option.map_eq_some_iff.mp hbroadcast
        obtain ⟨rfl, -⟩ := settle_none heq
        refine ⟨by simp [engineAction], hcancel, fun hreq => ?_⟩
        rw [hp] at hreq
        cases hreq
    · cases hbroadcast
  | rechokes amChoking =>
    obtain ⟨next, hstep, heq⟩ := Option.map_eq_some_iff.mp h
    obtain ⟨hnext, -⟩ := Prod.mk.inj heq
    obtain ⟨hs, hrest⟩ := Prod.mk.inj hnext
    obtain ⟨ht, -⟩ := Prod.mk.inj hrest
    have hpair : next = (s', t') := Prod.ext hs ht
    refine ⟨by simp [engineAction], by rw [← hpair]; exact hstep, fun _ => ?_⟩
    rw [hpair] at hstep
    simp only [taskStep] at hstep
    split at hstep
    · cases hstep
    · obtain ⟨-, rfl⟩ := Prod.mk.inj (Option.some.inj hstep)
      have hstays : w.task.point ≠ .disconnect := by
        intro hp
        rw [hp] at hin
        rcases hin with hno | hno <;> cases hno
      exact raisedBy_same rfl hstays
  | raises e =>
    obtain ⟨next, hraises, heq⟩ := Option.map_eq_some_iff.mp h
    obtain ⟨rfl, -⟩ := Prod.mk.inj heq
    unfold awaitRaises leave at hraises
    split at hraises
    · cases hraises
    · cases hraises
    · cases hraises
    · split at hraises
      · cases hraises
      · cases hraises
    · cases hraises
  | starts =>
    cases hp : w.task.point with
    | sendRequest => simp [runPeer, taskStep, hp] at h
    | sendCancel => simp [runPeer, taskStep, hp] at h
    | _ => rw [hp] at hin; rcases hin with hno | hno <;> cases hno
  | receives hint =>
    cases hp : w.task.point with
    | sendRequest => simp [runPeer, hp] at h
    | sendCancel => simp [runPeer, hp] at h
    | _ => rw [hp] at hin; rcases hin with hno | hno <;> cases hno
  | fetches =>
    cases hp : w.task.point with
    | sendRequest => simp [runPeer, taskStep, hp] at h
    | sendCancel => simp [runPeer, taskStep, hp] at h
    | _ => rw [hp] at hin; rcases hin with hno | hno <;> cases hno
  | stores k =>
    cases hp : w.task.point with
    | sendRequest => simp [runPeer, taskStep, hp] at h
    | sendCancel => simp [runPeer, taskStep, hp] at h
    | _ => rw [hp] at hin; rcases hin with hno | hno <;> cases hno
  | closes outcome => cases h
  | emits outcome => cases h
  | changes hub => cases h

theorem Completes.passes (h : Completes sha1 kind inside w steps w')
    (hin : ∀ p, inside p = true → requesting p = true ∨ cancelling p = true) :
    Passes sha1 kind inside w.task (steps.map fun step => (engineAction step.1, step.2)) w'.task := by
  induction h with
  | leaves hout => exact .leaves hout
  | pass hat hrun hsent _ ih =>
    obtain ⟨hraise, hstep, -⟩ := engine_of_run (hin _ hat) hrun
    exact .pass hat hraise hstep hsent ih

theorem packs_of_completes {w₀ : Wrapper} (h : Completes sha1 kind requesting w₀ steps w') (t : Task)
    (ht : w₀.task = requestFrom t spec offset)
    (hfirst : (offset : ℤ) < spec.length → packs (requestOf spec (offset, blockLen spec offset)) = true)
    (hn : spec.length.toNat ≤ n + offset) :
    ∀ block ∈ blocksFrom spec n offset, packs (requestOf spec block) = true := by
  induction h generalizing t offset with
  | leaves hout =>
    rw [ht, requestFrom] at hout
    by_cases hlt : (offset : ℤ) < spec.length
    · rw [if_pos hlt] at hout
      cases hout
    · rw [blocksFrom_end hlt]
      intro block hblock
      cases hblock
  | @pass a s s' w w' t' wire sent rest hin hrun _ _ ih =>
    obtain ⟨hraise, hstep, hraised⟩ := engine_of_run (Or.inl hin) hrun
    rw [requestFrom] at ht
    by_cases hlt : (offset : ℤ) < spec.length
    · rw [if_pos hlt] at ht
      have hp : w.task.point = .sendRequest spec offset := by
        rw [ht]
        rfl
      rcases requesting_step hp hraise hstep with rfl | ⟨rates, rfl⟩
      · have hnext := raisedBy_requestFrom.mp (hraised hin)
        intro block hblock
        rw [blocksFrom_succ hlt hn] at hblock
        rcases List.mem_cons.mp hblock with rfl | hblock
        · exact hfirst hlt
        · exact ih _ rfl hnext (by omega) block hblock
      · refine ih { t with rates := rates } ?_ hfirst hn
        rw [requestFrom, if_pos hlt, ht]
        rfl
    · rw [if_neg hlt] at ht
      rw [ht] at hin
      cases hin

theorem Requests.log (h : Requests sha1 kind spec w steps w') :
    w'.task.log = w.task.log ++ (blocks spec).map fun block => .sent (requestOf spec block) := by
  have hpasses := h.2.passes fun _ hp => Or.inl hp
  exact (requestFrom_passes hpasses w.task rfl (Nat.le_refl _)).2

theorem Requests.packs (h : Requests sha1 kind spec w steps w') :
    ∀ block ∈ blocks spec, packs (requestOf spec block) = true :=
  packs_of_completes h.2 w.task rfl (raisedBy_requestFrom.mp h.1) (Nat.le_refl _)

def emptySession : Session := SessionTasks.newSession ⟨0, [], ∅, ∅, ∅, fun _ => none⟩ []

theorem requests_end (sha1 : Bytes → Bytes) (kind : StorageKind) (w : Wrapper) (t : Task)
    (ht : w.task = requestFrom t spec offset)
    (hpacks : ∀ offset : ℕ, (offset : ℤ) < spec.length →
      packs (requestOf spec (offset, blockLen spec offset)) = true)
    (hn : spec.length.toNat ≤ n + offset) : ∃ steps w', Completes sha1 kind requesting w steps w' := by
  induction n generalizing w t offset with
  | zero =>
    refine ⟨[], w, .leaves ?_⟩
    rw [ht, requestFrom, if_neg (by omega)]
    rfl
  | succ n ih =>
    by_cases hlt : (offset : ℤ) < spec.length
    · obtain ⟨hpos, -, -⟩ := blockLen_spec hlt
      rw [requestFrom, if_pos hlt] at ht
      have hp : w.task.point = .sendRequest spec offset := by
        rw [ht]
        rfl
      have hraised : raisedBy w.task (requestFrom w.task spec (offset + blockLen spec offset)) .other =
          none := raisedBy_requestFrom.mpr fun hnext => hpacks _ hnext
      have hrun : runPeer sha1 kind (.returns 0) emptySession w = some
          ((emptySession, requestFrom w.task spec (offset + blockLen spec offset), none), w.wire) := by
        simp only [runPeer, hp, resume, Option.map_some, failureOf, settle, hraised]
      obtain ⟨rest, w', hrest⟩ := ih
        { w with task := requestFrom w.task spec (offset + blockLen spec offset), wire := w.wire }
        w.task rfl (by omega)
      refine ⟨(.returns 0, []) :: rest, w', .pass ?_ hrun (List.append_nil _).symm hrest⟩
      rw [hp]
      rfl
    · refine ⟨[], w, .leaves ?_⟩
      rw [ht, requestFrom, if_neg hlt]
      rfl

/-- The Requests of a piece are sent if, and only if, the piece is no longer than four bytes count. -/
theorem requests_iff (hindex : spec.index.toNat < 2 ^ 32) :
    (∃ steps w', Requests sha1 kind spec w steps w') ↔ spec.length ≤ 2 ^ 32 := by
  constructor
  · rintro ⟨steps, w', h⟩
    by_contra hlong
    have hblock : blockSize * 2 ^ 18 = 2 ^ 32 := by norm_num [blockSize]
    have hlt : ((blockSize * 2 ^ 18 : ℕ) : ℤ) < spec.length := by
      rw [hblock]
      push_cast
      omega
    have hmem := mem_blocks hlt
    have hpacks := h.packs _ hmem
    rw [hblock, requestOf, not_packs_request (Or.inr (Nat.le_refl _))] at hpacks
    cases hpacks
  · intro hlength
    have hpacks : ∀ offset : ℕ, (offset : ℤ) < spec.length →
        packs (requestOf spec (offset, blockLen spec offset)) = true :=
      fun offset hlt => (packs_block hindex hlt hlength).1
    obtain ⟨steps, w', hcompletes⟩ := requests_end sha1 kind
      { w with task := requestFrom w.task spec 0 } w.task rfl hpacks (Nat.le_refl (spec.length.toNat + 0))
    exact ⟨steps, w', raisedBy_requestFrom.mpr (hpacks 0), hcompletes⟩

theorem cancelStep_empty {index : ℕ} {addrs left : Finset Address} {peer : Address}
    (hp : t.point = .sendCancel index spec addrs offset left) (hpeer : peer ∈ left) :
    ∃ s' t', cancelStep peer true 0 emptySession t = some (s', t') ∧ t'.log = t.log ∧
      t'.point ≠ .disconnect := by
  simp only [cancelStep, hp, if_pos hpeer, if_true]
  split
  · exact ⟨_, _, rfl, rfl, by simp [Task.goto]⟩
  · unfold cancelFrom
    split
    · exact ⟨_, _, rfl, rfl, by simp [Task.goto]⟩
    · have hcomplete : ∀ cancels, ({ emptySession with cancels := cancels } : Session).tracker.isComplete :=
        fun _ => rfl
      rw [finishPiece, if_pos (hcomplete _)]
      exact ⟨_, _, rfl, rfl, by simp [Task.goto]⟩

/-- A broadcast to connected peers can be carried through. -/
theorem cancelling_ends (sha1 : Bytes → Bytes) (kind : StorageKind) {index : ℕ}
    {addrs left : Finset Address} (hp : w.task.point = .sendCancel index spec addrs offset left)
    (hleft : left ⊆ addrs) (hsome : left ≠ ∅) (hindex : index < 2 ^ 32)
    (hlength : spec.length ≤ 2 ^ 32) (hlt : (offset : ℤ) < spec.length)
    (hn : spec.length.toNat ≤ n + offset) :
    ∃ steps w', Completes sha1 kind cancelling w steps w' ∧
      ∀ step ∈ steps, ∃ peer hint, step.1 = .cancels peer true hint := by
  -- outside by what is left of the piece, inside by the peers that are left for this block
  induction n generalizing offset left w with
  | zero => omega
  | succ n ih =>
    obtain ⟨hpos, -, -⟩ := blockLen_spec hlt
    induction hcard : left.card generalizing left w with
    | zero => exact absurd (Finset.card_eq_zero.mp hcard) hsome
    | succ m ihm =>
      obtain ⟨peer, hpeer⟩ := Finset.nonempty_iff_ne_empty.mpr hsome
      have haddrs : addrs ≠ ∅ := Finset.nonempty_iff_ne_empty.mp ⟨peer, hleft hpeer⟩
      obtain ⟨s', t', hcancel, hlog, hstays⟩ := cancelStep_empty hp hpeer
      have hstep : taskStep sha1 kind (.cancels peer true 0) emptySession w.task = some (s', t') :=
        hcancel
      have hsent : s'.cancels = emptySession.cancels ++ s'.cancels := rfl
      have hin : cancelling w.task.point = true := by
        rw [hp]
        rfl
      have hrun : runPeer sha1 kind (.cancels peer true 0) emptySession w =
          some ((s', t', none), w.wire) := by
        have hbroadcast : broadcast peer true 0 emptySession w.task = some (s', t', none) := by
          unfold broadcast
          rw [hp]
          simp only
          rw [if_neg (by rw [(packs_block hindex hlt hlength).2]; simp), hcancel, Option.map_some,
            settle, raisedBy_same hlog hstays]
        simp only [runPeer, hbroadcast, Option.map_some]
      have hgoes : ∀ {rest w''},
          Completes sha1 kind cancelling { w with task := t', wire := w.wire } rest w'' →
          (∀ step ∈ rest, ∃ peer hint, step.1 = .cancels peer true hint) →
          ∃ steps w', Completes sha1 kind cancelling w steps w' ∧
            ∀ step ∈ steps, ∃ peer hint, step.1 = .cancels peer true hint := by
        intro rest w'' hrest hall
        refine ⟨_, w'', .pass hin hrun hsent hrest, fun step hmem => ?_⟩
        rcases List.mem_cons.mp hmem with rfl | hmem
        · exact ⟨peer, 0, rfl⟩
        · exact hall step hmem
      cases cancelling_step hp hleft (by simp) hstep hsent with
      | rechoked hno => exact absurd rfl (hno peer true 0)
      | cancel peer' connected hint ha _ _ hpoint =>
        obtain ⟨rfl, -, -⟩ := PieceEngine.Action.cancels.inj ha
        rcases hpoint with ⟨herase, hpoint⟩ | ⟨-, ⟨hnext, hpoint⟩ | ⟨-, hout⟩⟩
        · obtain ⟨rest, w'', hrest, hall⟩ := ihm (w := { w with task := t', wire := w.wire }) hpoint
            ((Finset.erase_subset _ _).trans hleft) herase (by rw [Finset.card_erase_of_mem hpeer]; omega)
          exact hgoes hrest hall
        · obtain ⟨rest, w'', hrest, hall⟩ := ih (w := { w with task := t', wire := w.wire }) hpoint
            (Finset.Subset.refl _) haddrs hnext (by omega)
          exact hgoes hrest hall
        · exact hgoes (.leaves hout) fun _ hmem => by cases hmem

/-- The requests of a piece tile it in blocks of at most 16 KiB; a piece is complete when, and only
when, every block has arrived, whatever the order and however often, and is then put together as it
was; and every peer that stays connected is sent one Cancel for each block. Requests and Cancels can
be sent for every piece that is no longer than four bytes count. -/
theorem blocks_agree {content : Bytes} (hcontent : (content.length : ℤ) = spec.length) :
    (Tiling 0 (blocks spec) content.length ∧ (∀ block ∈ blocks spec, block.2 ≤ 16384) ∧
      ∀ sha1 kind w,
        (spec.index.toNat < 2 ^ 32 → content.length ≤ 2 ^ 32 →
          ∃ steps w', Requests sha1 kind spec w steps w') ∧
        ∀ steps w', Requests sha1 kind spec w steps w' →
          w'.task.log = w.task.log ++ (blocks spec).map fun block => .sent (requestOf spec block)) ∧
    (∀ arrivals : List (ℕ × ℕ), (∀ block ∈ arrivals, block ∈ blocks spec) →
      (pieceComplete (stored content arrivals) spec.length = true ↔
        ∀ block ∈ blocks spec, block ∈ arrivals) ∧
      (pieceComplete (stored content arrivals) spec.length = true →
        assemblePiece (stored content arrivals) spec.length = some content)) ∧
    ∀ sha1 kind hint s t index addrs s' w, cancelFrom hint s t index spec addrs 0 = (s', w.task) →
      addrs ≠ ∅ →
      (index < 2 ^ 32 → content.length ≤ 2 ^ 32 →
        ∃ steps w', Completes sha1 kind cancelling w steps w' ∧
          ∀ step ∈ steps, ∃ peer hint, step.1 = .cancels peer true hint) ∧
      ∀ steps w' addr, Completes sha1 kind cancelling w steps w' → addr ∈ addrs →
        (∀ step ∈ steps, ∀ hint, step.1 ≠ .cancels addr false hint) →
        (steps.flatMap Prod.snd).filter (fun sent => sent.1 = addr) =
          (blocks spec).map (cancelOf index addr) := by
  have hlength : spec.length.toNat = content.length := by omega
  have hfuel : spec.length.toNat ≤ spec.length.toNat + 0 := Nat.le_refl _
  refine ⟨⟨hlength ▸ blocks_tiling spec, fun block hblock => blocksFrom_small hblock, ?_⟩, ?_, ?_⟩
  · intro sha1 kind w
    exact ⟨fun hindex hle => (requests_iff hindex).mpr (by omega), fun steps w' h => h.log⟩
  · intro arrivals harrivals
    have hiff := pieceComplete_iff hcontent harrivals
    exact ⟨hiff, fun hcomplete => assemblePiece_stored hcontent harrivals (hiff.mp hcomplete)⟩
  · intro sha1 kind hint s t index addrs s' w hfrom haddrs
    obtain ⟨-, ⟨hlt, hpoint⟩ | ⟨hend, hout⟩⟩ := cancelFrom_point haddrs hfrom
    · refine ⟨fun hindex hle => cancelling_ends sha1 kind hpoint (Finset.Subset.refl _) haddrs hindex
        (by omega) hlt hfuel, ?_⟩
      intro steps w' addr hcompletes haddr hconnected
      have hpasses := hcompletes.passes fun _ hp => Or.inr hp
      have hcancels := cancels_passes hpasses haddr hpoint (Finset.Subset.refl _) hlt hfuel
        fun step hmem hint heq => by
          obtain ⟨own, hown, rfl⟩ := List.mem_map.mp hmem
          exact hconnected own hown hint (engineAction_cancels heq)
      rw [List.flatMap_map] at hcancels
      rw [hcancels, if_pos haddr, blocks, blocksFrom_succ hlt hfuel]
      rfl
    · refine ⟨fun _ _ => ⟨[], w, .leaves hout, fun _ hmem => by cases hmem⟩, ?_⟩
      intro steps w' addr hcompletes _ _
      rw [blocks, blocksFrom_end hend]
      cases hcompletes with
      | leaves _ => rfl
      | pass hin => rw [hout] at hin; cases hin

/-- Two full blocks and the rest of a piece; the second one comes twice. -/
theorem blocks_agree_threeBlocks :
    ∃ spec content, blocks spec = [(0, 16384), (16384, 16384), (32768, 7232)] ∧
      content.length = 40000 ∧ Tiling 0 (blocks spec) content.length ∧
      (∀ w, ∃ steps w', Requests id .files spec w steps w') ∧
      assemblePiece (stored content [(16384, 16384), (32768, 7232), (16384, 16384), (0, 16384)])
        spec.length = some content := by
  let spec : PieceSpec := ⟨0, 0, 40000, []⟩
  have hblocks : blocks spec = [(0, 16384), (16384, 16384), (32768, 7232)] := by decide +kernel
  have hlength : (List.replicate 40000 (7 : UInt8)).length = 40000 := List.length_replicate
  have hcontent : (((List.replicate 40000 (7 : UInt8)).length : ℕ) : ℤ) = spec.length := by
    rw [hlength]
    rfl
  obtain ⟨⟨htiling, -, hrequests⟩, hstored, -⟩ := blocks_agree hcontent
  obtain ⟨hiff, hassemble⟩ := hstored
    [(16384, 16384), (32768, 7232), (16384, 16384), (0, 16384)] (by rw [hblocks]; decide)
  refine ⟨spec, List.replicate 40000 7, hblocks, hlength, htiling, fun w => ?_, hassemble (hiff.mpr ?_)⟩
  · exact (hrequests id .files w).1 (by decide) (by rw [hlength]; norm_num)
  · rw [hblocks]
    decide

/-- A piece of `2 ^ 32 + 1` bytes has a block at `2 ^ 32`, whose Request raises `struct.error`, and
its Requests are never all sent. -/
theorem long_piece_not_requested :
    (2 ^ 32, 1) ∈ blocks ⟨0, 0, 2 ^ 32 + 1, []⟩ ∧
      packs (requestOf ⟨0, 0, 2 ^ 32 + 1, []⟩ (2 ^ 32, 1)) = false ∧
      ¬ ∃ steps w', Requests id .files ⟨0, 0, 2 ^ 32 + 1, []⟩
        ⟨0, newTask ⟨[1], 6881⟩ true none, [], none, .running⟩ steps w' := by
  refine ⟨?_, not_packs_request (Or.inr (Nat.le_refl _)), fun h => ?_⟩
  · have hblock : blockSize * 2 ^ 18 = 2 ^ 32 := by norm_num [blockSize]
    have hrest : blockLen ⟨0, 0, 2 ^ 32 + 1, []⟩ (2 ^ 32) = 1 := by norm_num [blockLen, blockSize]
    have hlt : ((blockSize * 2 ^ 18 : ℕ) : ℤ) < (⟨0, 0, 2 ^ 32 + 1, []⟩ : PieceSpec).length := by
      norm_num [blockSize]
    have hmem := mem_blocks hlt
    rwa [hblock, hrest] at hmem
  · have hlength := (requests_iff (by norm_num)).mp h
    norm_num at hlength

end PackedBlocks
