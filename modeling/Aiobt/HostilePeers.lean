import Aiobt.PeerExceptions
import Mathlib.Tactic.Abel

/-! # What a peer can do to its task

Whatever a remote sends, its task ends and is cleaned up. It returns unless a message cannot be
parsed, or what is awaited raises something that is caught nowhere. -/
namespace HostilePeers

open ByteStrings PieceTracker PieceEngine PeerMessages WireFraming EngineTurns
open InterleavedProcesses PeerWrapper PeerExceptions
open PeerRegistry (Registry)

variable {sha1 : Bytes → Bytes} {kind : StorageKind} {a : PeerWrapper.Action} {w w' : Wrapper}
  {hub hub' : Hub} {wire : Bytes} {next : Session × Task × Option Exn}

variable {conn : ℕ} {addr : Address} {c c' : Config Hub Proc} {m : Move Proc PeerWrapper.Action}
  {moves : List (Move Proc PeerWrapper.Action)}

def Lists (r : Registry) (conn : ℕ) (addr : Address) : Prop :=
  r.peers addr = some conn ∨ r.rates addr = some conn ∨ r.stats addr = some conn

def newWrapper (conn : ℕ) (addr : Address) (endgameGiven : Bool) (rates : Option Rates)
    (wire : Bytes) : Wrapper where
  conn := conn
  task := newTask addr endgameGiven rates
  wire := wire
  leaving := none
  stage := .running

/-- The connection is at most registered for its address, and its end was not announced. -/
structure Expected (hub : Hub) (conn : ℕ) (addr : Address) : Prop where
  sound : Sound hub.session
  entries : ∀ a, Lists hub.registry conn a → a = addr
  announced : hub.disconnected.count conn = 0

/-- Other tasks keep the session in order, and neither register the connection nor announce its end. -/
structure Respects (conn : ℕ) (hub hub' : Hub) : Prop where
  sound : Sound hub'.session
  specs : hub'.session.tracker.specs = hub.session.tracker.specs
  entries : ∀ a, Lists hub'.registry conn a → Lists hub.registry conn a
  announced : hub'.disconnected.count conn = hub.disconnected.count conn

def Apart (conn : ℕ) (c : Config Hub Proc) : Move Proc PeerWrapper.Action → Prop
  | .spawn _ => False
  | .act _ (.changes hub) => Respects conn c.shared hub
  | .act _ _ => True

def paid (w : Wrapper) : ℤ × ℤ :=
  match w.stage with
  | .running => 0
  | _ => (w.task.bytesDownloaded, w.task.bytesUploaded)

structure InOrder (sha1 : Bytes → Bytes) (conn : ℕ) (addr : Address) (hub : Hub) (w : Wrapper) :
    Prop where
  connection : w.conn = conn
  address : w.task.addr = addr
  sound : Sound hub.session
  task : w.stage = .running → TaskOk sha1 hub.session.tracker.specs w.task ∧
    PointOk hub.session.tracker.specs w.task.point
  entries : ∀ a, Lists hub.registry conn a → w.stage = .running ∧ a = addr
  announced : hub.disconnected.count conn = if w.stage = .running then 0 else 1
  leaving : ∀ e ∈ w.leaving, caughtByWrapper e = false ∧
    (w.stage = .running → w.task.point = .disconnect)

theorem cleanup_lists (r : Registry) (a : Address) (hentries : ∀ a', Lists r conn a' → a' = a)
    (a' : Address) : ¬ Lists (PeerRegistry.cleanup r a) conn a' := by
  by_cases ha : a' = a
  · subst ha
    simp [Lists, PeerRegistry.cleanup]
  · intro hlists
    apply ha
    apply hentries
    simpa [Lists, PeerRegistry.cleanup, Function.update_of_ne ha] using hlists

theorem begin_lists {a' : Address} (haddr : w.task.addr = addr)
    (hentries : ∀ a, Lists hub.registry conn a → a = addr)
    (h : Lists (begin a hub w).registry conn a') : a' = addr := by
  unfold begin at h
  split at h
  · by_cases ha : a' = addr
    · exact ha
    · apply hentries
      simpa [Lists, haddr, Function.update_of_ne ha] using h
  · exact hentries a' h

theorem begin_disconnected : (begin a hub w).disconnected = hub.disconnected := by
  unfold begin
  split
  · rfl
  · rfl

/-- What is still on its way after a step of `run_peer`. -/
theorem leaving_iff (h : InOrder sha1 conn addr hub w) (hstage : w.stage = .running)
    (hnext : runPeer sha1 kind a hub.session w = some (next, wire)) :
    leavingAfter w.leaving next.2.2 = none ↔ w.leaving = none ∧ contained kind w a = true := by
  obtain ⟨htask, hpoint⟩ := h.task hstage
  obtain ⟨hcontained, -⟩ := runPeer_contained h.sound htask hpoint hnext
  cases hleaving : w.leaving with
  | none =>
    rw [← hcontained]
    cases next.2.2 with
    | none => simp [leavingAfter]
    | some e => simp [leavingAfter]
  | some e =>
    have hdis := (h.leaving e hleaving).2 hstage
    rw [(runPeer_disconnect hdis hnext).1]
    simp [leavingAfter]

theorem InOrder.over (h : InOrder sha1 conn addr hub w) (hstage : w.stage = .emitting)
    {stage : PeerWrapper.Stage} (hover : stage ≠ .running) :
    InOrder sha1 conn addr hub { w with stage := stage } where
  connection := h.connection
  address := h.address
  sound := h.sound
  task hno := absurd hno hover
  entries a ha := by
    have hrunning := (h.entries a ha).1
    rw [hstage] at hrunning
    cases hrunning
  announced := by
    rw [if_neg hover, h.announced, hstage]
    rfl
  leaving e he := ⟨(h.leaving e he).1, fun hno => absurd hno hover⟩

/-- A step keeps order, and the counters of the session change by what is paid. -/
theorem step_inOrder (h : InOrder sha1 conn addr hub w)
    (hstep : wrapperStep sha1 kind a hub w = some (hub', w')) :
    InOrder sha1 conn addr hub' w' ∧
      EngineTurns.counts hub'.session + paid w = EngineTurns.counts hub.session + paid w' := by
  cases wrapperStep_step hstep with
  | @runs next wire hstage hnext =>
    obtain ⟨htask, hpoint⟩ := h.task hstage
    have hkept := runPeer_kept h.sound htask hnext
    obtain ⟨-, hpoint'⟩ := runPeer_contained h.sound htask hpoint hnext
    refine ⟨⟨h.connection, hkept.addr.trans h.address, hkept.sound, fun _ => ?_, fun a' ha' => ?_, ?_,
      fun e he => ?_⟩, ?_⟩
    · rw [hkept.specs]
      exact ⟨hkept.task, hpoint'⟩
    · exact ⟨hstage, begin_lists h.address (fun a ha => (h.entries a ha).2) ha'⟩
    · show (begin a hub w).disconnected.count conn = _
      rw [begin_disconnected]
      exact h.announced
    · cases hraised : next.2.2 with
      | none =>
        simp only [hraised, leavingAfter] at he
        obtain ⟨hcaught, hdis⟩ := h.leaving e he
        exact ⟨hcaught, fun _ => (runPeer_disconnect (hdis hstage) hnext).2⟩
      | some e' =>
        simp only [hraised, leavingAfter] at he
        exact ⟨escapes_caught he, fun _ => runPeer_raised hnext hraised⟩
    · simp only [paid, hstage, add_zero]
      exact hkept.counts
  | @closes outcome _ hstage hp =>
    refine ⟨⟨h.connection, h.address, ?_, fun hno => (by cases hno), fun a' ha' => ?_, ?_,
      fun e he => ⟨?_, fun hno => (by cases hno)⟩⟩, ?_⟩
    · exact ⟨h.sound.specs, h.sound.count, h.sound.few, h.sound.spec, h.sound.inside, h.sound.endgame⟩
    · exact absurd ha' (cleanup_lists _ _ (fun a ha => (h.entries a ha).2.trans h.address.symm) a')
    · have hnone := h.announced
      rw [if_pos hstage] at hnone
      simp [finish, h.connection, hnone]
    · simp only [finish] at he
      split at he
      · cases he
      · next hcaught =>
        rw [he] at hcaught
        simpa using hcaught
    · simp only [paid, hstage, finish, EngineTurns.counts, add_zero]
      rfl
  | raises _ hstage =>
    refine ⟨h.over hstage (by simp), ?_⟩
    simp only [paid, hstage]
  | returns _ hstage =>
    refine ⟨h.over hstage (by simp), ?_⟩
    simp only [paid, hstage]

theorem can_step (h : InOrder sha1 conn addr hub w)
    (hstage : w.stage = .running ∨ w.stage = .emitting) :
    ∃ a, a.own = true ∧ (wrapperStep sha1 kind a hub w).isSome := by
  rcases hstage with hstage | hstage
  · obtain ⟨-, hpoint⟩ := h.task hstage
    cases hp : w.task.point with
    | ended =>
      rw [hp] at hpoint
      exact hpoint.elim
    | starting =>
      obtain ⟨data, hdata, -⟩ := h.sound.bitfield
      exact ⟨.starts, rfl, by simp [wrapperStep, hstage, runPeer, taskStep, hp, hdata]⟩
    | receive => exact ⟨.receives 0, rfl, by simp [wrapperStep, hstage, runPeer, hp]⟩
    | read index begin length offset data =>
      by_cases hmore : fetchByte hub.session.storage offset length data = none
      · refine ⟨.returns 0, rfl, ?_⟩
        simp only [wrapperStep, hstage, runPeer, hp, resume]
        rw [if_neg (not_not.mpr hmore)]
        split
        · rfl
        · rfl
      · refine ⟨.fetches, rfl, ?_⟩
        obtain ⟨byte, hbyte⟩ := Option.ne_none_iff_exists'.mp hmore
        simp [wrapperStep, hstage, runPeer, taskStep, hp, hbyte]
    | sendCancel index spec addrs offset left =>
      rw [hp] at hpoint
      obtain ⟨other, hother⟩ := Finset.nonempty_iff_ne_empty.mpr hpoint.2.2
      refine ⟨.cancels other false 0, rfl, ?_⟩
      simp only [wrapperStep, hstage, runPeer, broadcast, hp, cancelStep]
      rw [if_neg (by simp), if_pos hother]
      split
      · rfl
      · rfl
    | disconnect => exact ⟨.closes none, rfl, by simp [wrapperStep, hstage, hp]⟩
    | _ => exact ⟨.returns 0, rfl, by simp [wrapperStep, hstage, runPeer, hp, resume]⟩
  · refine ⟨.emits none, rfl, ?_⟩
    simp only [wrapperStep, hstage]
    split
    · rfl
    · rfl

def start (hub : Hub) (w : Wrapper) : Config Hub Proc := ⟨hub, [.wrapper w, .world]⟩

/-- A move is a step of the wrapper, or others change what they share with it. -/
theorem apply_cases (hok : Apart conn (start hub w) m)
    (h : apply (program sha1 kind) (start hub w) m = some c') :
    (∃ a hub' w', m = .act 0 a ∧ (∀ hub₁, a ≠ .changes hub₁) ∧
        wrapperStep sha1 kind a hub w = some (hub', w') ∧ c' = start hub' w') ∨
      ∃ hub', m = .act 1 (.changes hub') ∧ Respects conn hub hub' ∧ c' = start hub' w := by
  cases m with
  | spawn p => exact hok.elim
  | act i a =>
    obtain ⟨p, hub', p', hp, hstep, rfl⟩ := apply_act h
    rcases i with _ | _ | i
    · obtain rfl : Proc.wrapper w = p := Option.some.inj hp
      cases a with
      | changes hub₁ => cases hstep
      | _ =>
        obtain ⟨next, hnext, heq⟩ := Option.map_eq_some_iff.mp hstep
        obtain ⟨rfl, rfl⟩ := Prod.mk.inj heq
        exact Or.inl ⟨_, _, _, rfl, by simp, hnext, rfl⟩
    · obtain rfl : Proc.world = p := Option.some.inj hp
      cases a with
      | changes hub₁ =>
        obtain ⟨rfl, rfl⟩ := Prod.mk.inj (Option.some.inj hstep)
        exact Or.inr ⟨hub₁, rfl, hok, rfl⟩
      | _ => cases hstep
    · cases hp

theorem InOrder.changes (h : InOrder sha1 conn addr hub w) (hr : Respects conn hub hub') :
    InOrder sha1 conn addr hub' w where
  connection := h.connection
  address := h.address
  sound := hr.sound
  task hstage := by
    rw [hr.specs]
    exact h.task hstage
  entries a ha := h.entries a (hr.entries a ha)
  announced := hr.announced.trans h.announced
  leaving := h.leaving

theorem newWrapper_inOrder (sha1 : Bytes → Bytes) (h : Expected hub conn addr) (given : Bool) (rates : Option Rates)
    (wire : Bytes) : InOrder sha1 conn addr hub (newWrapper conn addr given rates wire) where
  connection := rfl
  address := rfl
  sound := h.sound
  task _ := ⟨newTask_taskOk _ addr given rates, trivial⟩
  entries a ha := ⟨rfl, h.entries a ha⟩
  announced := h.announced
  leaving e he := by cases he

def change (c c' : Config Hub Proc) : Move Proc PeerWrapper.Action → ℤ × ℤ
  | .act _ (.changes _) => EngineTurns.counts c'.shared.session - EngineTurns.counts c.shared.session
  | _ => 0

def others (S : Program Hub Proc PeerWrapper.Action) : Config Hub Proc →
    List (Move Proc PeerWrapper.Action) → ℤ × ℤ
  | _, [] => 0
  | c, m :: rest =>
    match apply S c m with
    | none => 0
    | some c' => change c c' m + others S c' rest

/-- What is awaited at the end does not raise: the disconnection nothing but an `OSError`, the
emission nothing at all. -/
def concluded : Move Proc PeerWrapper.Action → Bool
  | .act _ (.closes outcome) => outcome.all caughtByWrapper
  | .act _ (.emits outcome) => outcome.isNone
  | _ => true

/-- The step of `run_peer` raises nothing that is not caught there. -/
def Contained (kind : StorageKind) (c : Config Hub Proc) : Move Proc PeerWrapper.Action → Prop
  | .act i a => ∀ w, c.procs[i]? = some (.wrapper w) → w.stage = .running → contained kind w a = true
  | .spawn _ => True

/-- The disconnection raises an `OSError`, which takes the place of what is on its way. -/
def Masked (moves : List (Move Proc PeerWrapper.Action)) : Prop :=
  .act 0 (.closes (some .osError)) ∈ moves

def Returns (sha1 : Bytes → Bytes) (kind : StorageKind) (hub : Hub) (w : Wrapper)
    (moves : List (Move Proc PeerWrapper.Action)) : Prop :=
  match w.stage with
  | .running => (∀ m ∈ moves, concluded m = true) ∧
      (w.leaving = none ∧ Allowed (program sha1 kind) (Contained kind) (start hub w) moves ∨
        Masked moves)
  | .emitting => (∀ m ∈ moves, concluded m = true) ∧ w.leaving = none
  | .returned => True
  | .raised _ => False

theorem contained_start (a : PeerWrapper.Action) (hub : Hub) (w : Wrapper) :
    Contained kind (start hub w) (.act 0 a) ↔ (w.stage = .running → contained kind w a = true) := by
  constructor
  · intro h
    exact h w rfl
  · intro h w' hw
    obtain rfl : w = w' := by simpa [start] using hw
    exact h

/-- After the clean-up there is nothing left that could raise but the emission. -/
theorem late (hstage : w.stage ≠ .running)
    (hok : Allowed (program sha1 kind) (Apart conn) (start hub w) moves)
    (hrun : run (program sha1 kind) (start hub w) moves = some c') :
    ¬ Masked moves ∧ Allowed (program sha1 kind) (Contained kind) (start hub w) moves ∧
      (w.stage.over = true → ∀ m ∈ moves, concluded m = true) := by
  induction moves generalizing hub w with
  | nil => exact ⟨List.not_mem_nil, trivial, fun _ m hm => absurd hm List.not_mem_nil⟩
  | cons m rest ih =>
    obtain ⟨c₁, happ, hrest⟩ := run_cons hrun
    rw [allowed_cons happ] at hok ⊢
    rcases apply_cases hok.1 happ with ⟨a, hub', w', rfl, -, hstep, rfl⟩ | ⟨hub', rfl, -, rfl⟩
    · have hnot : ∀ outcome, a = .emits outcome → w.stage = .emitting →
          w'.stage ≠ .running → ¬ Masked (.act 0 a :: rest) ∧
            (Contained kind (start hub w) (.act 0 a) ∧
              Allowed (program sha1 kind) (Contained kind) (start hub' w') rest) ∧
            (w.stage.over = true → ∀ m ∈ Move.act 0 a :: rest, concluded m = true) := by
        intro outcome ha hemitting hstage'
        obtain ⟨hmasked, hcontained, -⟩ := ih hstage' hok.2 hrest
        refine ⟨?_, ⟨(contained_start a hub w).mpr fun hno => absurd hno hstage, hcontained⟩, ?_⟩
        · rw [ha]
          simpa [Masked] using hmasked
        · intro hover
          rw [hemitting] at hover
          cases hover
      cases wrapperStep_step hstep with
      | runs hrunning => exact absurd hrunning hstage
      | closes _ hrunning => exact absurd hrunning hstage
      | raises ha hemitting => exact hnot _ ha hemitting (by simp)
      | returns ha hemitting => exact hnot _ ha hemitting (by simp)
    · obtain ⟨hmasked, hcontained, hconcluded⟩ := ih hstage hok.2 hrest
      refine ⟨?_, ⟨?_, hcontained⟩, fun hover m hm => ?_⟩
      · simpa [Masked] using hmasked
      · intro w' hw
        cases hw
      · rcases List.mem_cons.mp hm with rfl | hm
        · rfl
        · exact hconcluded hover m hm

theorem masked_cons {rest : List (Move Proc PeerWrapper.Action)}
    (h : m ≠ .act 0 (.closes (some .osError))) : Masked (m :: rest) ↔ Masked rest := by
  simp [Masked, Ne.symm h]

/-- A task that ends returns exactly when nothing that escapes comes out of `run_peer`, or is masked,
and the end itself raises nothing. -/
theorem returned_iff (h : InOrder sha1 conn addr hub w)
    (hok : Allowed (program sha1 kind) (Apart conn) (start hub w) moves)
    (hrun : run (program sha1 kind) (start hub w) moves = some (start hub' w'))
    (hover : w'.stage.over = true) : w'.stage = .returned ↔ Returns sha1 kind hub w moves := by
  induction moves generalizing hub w with
  | nil =>
    obtain ⟨rfl, rfl⟩ : hub = hub' ∧ w = w' := by simpa [run, start] using hrun
    unfold Returns
    cases hstage : w.stage with
    | running => rw [hstage] at hover; cases hover
    | emitting => rw [hstage] at hover; cases hover
    | returned => simp
    | raised e => simp
  | cons m rest ih =>
    obtain ⟨c₁, happ, hrest⟩ := run_cons hrun
    rw [allowed_cons happ] at hok
    rcases apply_cases hok.1 happ with ⟨a, hub₁, w₁, rfl, hown, hstep, rfl⟩ | ⟨hub₁, rfl, hr, rfl⟩
    · have hnext := ih (step_inOrder h hstep).1 hok.2 hrest
      rw [hnext]
      cases wrapperStep_step hstep with
      | @runs next wire hstage hnext' =>
        have hconcluded : concluded (.act 0 a) = true := by
          cases a with
          | closes outcome => cases hnext'
          | emits outcome => cases hnext'
          | _ => rfl
        have hmasked : Masked (.act 0 a :: rest) ↔ Masked rest := by
          apply masked_cons
          rintro heq
          cases heq
          cases hnext'
        unfold Returns
        simp only [hstage]
        rw [leaving_iff h hstage hnext', hmasked, allowed_cons happ, contained_start,
          List.forall_mem_cons]
        simp only [hconcluded, true_and, hstage, true_implies]
        tauto
      | @closes outcome ha hstage hp =>
        subst ha
        obtain ⟨hmasked, hcontained, -⟩ := late (by simp [finish]) hok.2 hrest
        have hunmasked : ∀ outcome, outcome ≠ some .osError →
            ¬ Masked (.act 0 (.closes outcome) :: rest) := by
          intro outcome hne
          rw [masked_cons (by simpa using hne)]
          exact hmasked
        have hhere : Allowed (program sha1 kind) (Contained kind) (start hub w)
            (.act 0 (.closes outcome) :: rest) := by
          rw [allowed_cons happ]
          exact ⟨(contained_start _ hub w).mpr fun _ => rfl, hcontained⟩
        unfold Returns
        simp only [hstage, finish, List.forall_mem_cons, iff_true_intro hhere, and_true]
        cases houtcome : outcome with
        | none =>
          have hkept : w.leaving.any caughtByWrapper = false := by
            cases hleaving : w.leaving with
            | none => rfl
            | some e => exact (h.leaving e hleaving).1
          simp [concluded, hunmasked none (by simp), hkept]
        | some e =>
          cases e with
          | osError => simp [concluded, Masked, caughtByWrapper]
          | _ => simp [concluded, caughtByWrapper]
      | @raises outcome e ha hstage hleaving =>
        subst ha
        unfold Returns
        simp only [hstage, List.forall_mem_cons]
        cases outcome with
        | none =>
          rw [show w.leaving = some e from hleaving]
          simp
        | some e' => simp [concluded]
      | @returns outcome ha hstage hleaving =>
        subst ha
        obtain ⟨-, -, hconcluded⟩ := late (by simp) hok.2 hrest
        unfold Returns
        simp only [hstage, List.forall_mem_cons]
        cases outcome with
        | none =>
          rw [show w.leaving = none from hleaving]
          simpa [concluded] using hconcluded rfl
        | some e' => cases hleaving
    · have hnext := ih (h.changes hr) hok.2 hrest
      rw [hnext]
      have hhere : Contained kind (start hub w) (.act 1 (.changes hub₁)) := by
        intro w' hw
        cases hw
      have hmasked : Masked (.act 1 (.changes hub₁) :: rest) ↔ Masked rest := masked_cons (by simp)
      unfold Returns
      cases w.stage with
      | running => simp only [hmasked, allowed_cons happ, hhere, true_and, List.forall_mem_cons, concluded]
      | emitting => simp only [true_and, List.forall_mem_cons, concluded]
      | returned => rfl
      | raised e => rfl

theorem run_inOrder (h : InOrder sha1 conn addr hub w)
    (hok : Allowed (program sha1 kind) (Apart conn) (start hub w) moves)
    (hrun : run (program sha1 kind) (start hub w) moves = some c') :
    ∃ hub' w', c' = start hub' w' ∧ InOrder sha1 conn addr hub' w' ∧
      EngineTurns.counts hub'.session + paid w = EngineTurns.counts hub.session +
        others (program sha1 kind) (start hub w) moves + paid w' := by
  induction moves generalizing hub w with
  | nil =>
    refine ⟨hub, w, (Option.some.inj hrun).symm, h, ?_⟩
    rw [others, add_zero]
  | cons m rest ih =>
    obtain ⟨c₁, happ, hrest⟩ := run_cons hrun
    rw [allowed_cons happ] at hok
    simp only [others, happ]
    rcases apply_cases hok.1 happ with ⟨a, hub₁, w₁, rfl, hown, hstep, rfl⟩ | ⟨hub₁, rfl, hr, rfl⟩
    · obtain ⟨hnext, hpaid⟩ := step_inOrder h hstep
      obtain ⟨hub', w', rfl, hlast, hcounts⟩ := ih hnext hok.2 hrest
      refine ⟨hub', w', rfl, hlast, ?_⟩
      have hnone : change (start hub w) (start hub₁ w₁) (.act 0 a) = 0 := by
        cases a with
        | changes hub₂ => exact absurd rfl (hown hub₂)
        | _ => rfl
      rw [hnone, zero_add]
      apply add_right_cancel (b := paid w₁)
      calc EngineTurns.counts hub'.session + paid w + paid w₁
          = EngineTurns.counts hub'.session + paid w₁ + paid w := by abel
        _ = EngineTurns.counts hub₁.session + paid w +
              (others (program sha1 kind) (start hub₁ w₁) rest + paid w') := by
            rw [hcounts]
            abel
        _ = EngineTurns.counts hub.session + others (program sha1 kind) (start hub₁ w₁) rest +
              paid w' + paid w₁ := by
            rw [hpaid]
            abel
    · obtain ⟨hub', w', rfl, hlast, hcounts⟩ := ih (h.changes hr) hok.2 hrest
      refine ⟨hub', w', rfl, hlast, ?_⟩
      rw [hcounts]
      show _ = EngineTurns.counts hub.session +
        (EngineTurns.counts hub₁.session - EngineTurns.counts hub.session +
          others (program sha1 kind) (start hub₁ w) rest) + paid w'
      abel

def Own : Move Proc PeerWrapper.Action → Prop
  | .act 0 a => a.own = true
  | _ => False

/-- Nothing is left of the connection, its end was announced once, and its counts were added once to
what the session had and to what others have added. -/
structure CleanedUp (conn : ℕ) (before added : ℤ × ℤ) (hub : Hub) (w : Wrapper) : Prop where
  entries : ∀ a, ¬ Lists hub.registry conn a
  announced : hub.disconnected.count conn = 1
  counted : EngineTurns.counts hub.session =
    before + added + ((w.task.bytesDownloaded : ℤ), (w.task.bytesUploaded : ℤ))

def rank (c : Config Hub Proc) : ℕ × ℕ × ℕ :=
  match c.procs with
  | .wrapper w :: _ => distance w
  | _ => (0, 0, 0)

/-- Whatever a peer sends, its task can go on until it is over, takes only finitely many steps, and
is cleaned up in the end. It returns exactly when all that is raised in `run_peer` is caught there,
or an `OSError` of the disconnection takes its place, and the end itself raises nothing else. -/
theorem hostile_peer_contained (sha1 : Bytes → Bytes) (kind : StorageKind)
    (h : Expected hub conn addr) (given : Bool) (rates : Option Rates) (wire : Bytes) :
    (∀ moves c', Allowed (program sha1 kind) (Apart conn)
          (start hub (newWrapper conn addr given rates wire)) moves →
        run (program sha1 kind) (start hub (newWrapper conn addr given rates wire)) moves = some c' →
        ∃ hub' w', c' = start hub' w' ∧
          (w'.stage.over = false →
            ∃ a, a.own = true ∧ (wrapperStep sha1 kind a hub' w').isSome = true) ∧
          (w'.stage.over = true →
            CleanedUp conn (EngineTurns.counts hub.session) (others (program sha1 kind)
              (start hub (newWrapper conn addr given rates wire)) moves) hub' w' ∧
            (w'.stage = .returned ↔ (∀ m ∈ moves, concluded m = true) ∧
              (Allowed (program sha1 kind) (Contained kind)
                (start hub (newWrapper conn addr given rates wire)) moves ∨ Masked moves)))) ∧
      ∀ c m, Forever (program sha1 kind) (Apart conn) c m →
        c 0 = start hub (newWrapper conn addr given rates wire) →
        ∃ N, ∀ n, N ≤ n → ¬ Own (m n) := by
  have hstart := newWrapper_inOrder sha1 h given rates wire
  refine ⟨fun moves c' hok hrun => ?_, fun c m hrun hc => ?_⟩
  · obtain ⟨hub', w', rfl, hlast, hcounts⟩ := run_inOrder hstart hok hrun
    refine ⟨hub', w', rfl, fun hover => can_step hlast ?_, fun hover => ?_⟩
    · cases hstage : w'.stage with
      | running => exact Or.inl rfl
      | emitting => exact Or.inr rfl
      | _ => rw [hstage] at hover; cases hover
    have hrunning : w'.stage ≠ .running := by
      intro hstage
      rw [hstage] at hover
      cases hover
    have hpaid : paid w' = ((w'.task.bytesDownloaded : ℤ), (w'.task.bytesUploaded : ℤ)) := by
      unfold paid
      split
      · next hstage => exact absurd hstage hrunning
      · rfl
    refine ⟨⟨fun a ha => hrunning (hlast.entries a ha).1, ?_, ?_⟩, ?_⟩
    · rw [hlast.announced, if_neg hrunning]
    · rw [← hpaid, ← hcounts]
      exact (add_zero _).symm
    · exact (returned_iff hstart hok hrun hover).trans (by simp [Returns, newWrapper])
  · have hat : ∀ n, ∃ hub' w', c n = start hub' w' := by
      intro n
      have hreach := hrun.reach n
      rw [hc] at hreach
      refine hreach.invariant (I := fun c => ∃ hub' w', c = start hub' w') ⟨_, _, rfl⟩ ?_ ?_
      · intro c p _ hno
        exact hno.elim
      · rintro c i a p s p' ⟨hub', w', rfl⟩ hok hp hstep
        have happ : apply (program sha1 kind) (start hub' w') (.act i a) =
            some ⟨s, (start hub' w').procs.set i p'⟩ := by
          simp only [apply, hp]
          rw [show program sha1 kind a (start hub' w').shared p = some (s, p') from hstep]
        rcases apply_cases hok happ with ⟨_, _, _, -, -, -, heq⟩ | ⟨_, -, -, heq⟩
        · exact ⟨_, _, heq⟩
        · exact ⟨_, _, heq⟩
    have hmove : ∀ n, (∃ a w w', m n = .act 0 a ∧ rank (c n) = distance w ∧
        rank (c (n + 1)) = distance w' ∧
          ∃ hub hub', wrapperStep sha1 kind a hub w = some (hub', w')) ∨
        ¬ Own (m n) ∧ rank (c (n + 1)) = rank (c n) := by
      intro n
      obtain ⟨hub', w', hn⟩ := hat n
      obtain ⟨hok, happ⟩ := hrun n
      rw [hn] at hok happ
      rcases apply_cases hok happ with ⟨a, _, w₁, hm, -, hstep, heq⟩ | ⟨_, hm, -, heq⟩
      · exact Or.inl ⟨a, w', w₁, hm, by rw [hn]; rfl, by rw [heq]; rfl, _, _, hstep⟩
      · refine Or.inr ⟨?_, by rw [heq, hn]; rfl⟩
        rw [hm]
        exact id
    apply settles nearer_wellFounded fun n => rank (c n)
    · intro n hown
      rcases hmove n with ⟨a, w, w', hm, hw, hw', hub, hub', hstep⟩ | ⟨hno, -⟩
      · rw [hm] at hown
        simp only [hw, hw']
        exact wrapperStep_nearer hown hstep
      · exact absurd hown hno
    · intro n hother
      rcases hmove n with ⟨a, w, w', hm, hw, hw', hub, hub', hstep⟩ | ⟨-, hsame⟩
      · rw [hm] at hother
        simp only [hw, hw']
        exact wrapperStep_distance (Bool.eq_false_iff.mpr hother) hstep
      · exact hsame

def smallHub : Hub where
  session :=
    { tracker := ⟨1, [⟨0, 0, 1, []⟩], ∅, ∅, ∅, fun _ => none⟩
      endgame := .new
      storage := [0]
      doneEvent := false
      events := []
      cancels := []
      state := .downloading
      resumeChecked := true
      bytesDownloaded := 0
      bytesUploaded := 0 }
  registry := ⟨fun _ => none, fun _ => none, fun _ => none⟩
  disconnected := []

theorem smallHub_expected (conn : ℕ) (addr : Address) : Expected smallHub conn addr where
  sound := by
    refine ⟨rfl, by decide, by decide, fun i spec hspec => ?_, fun i hi => ?_, fun i hi => ?_⟩
    · obtain ⟨hi, rfl⟩ := List.getElem?_eq_some_iff.mp hspec
      obtain rfl : i = 0 := Nat.lt_one_iff.mp hi
      refine ⟨rfl, ?_, ?_⟩
      · show (0 : ℤ) ≤ 1
        norm_num
      · show (1 : ℤ) ≤ 2 ^ 32
        norm_num
    · exact absurd hi (Finset.notMem_empty i)
    · exact absurd hi (Finset.notMem_empty i)
  entries a ha := by simp [Lists, smallHub] at ha
  announced := rfl

def somePeer : Address := ⟨[10, 0, 0, 1], 6881⟩

/-- An Interested message is answered; the next one is cut off by the end of the stream. -/
def cutOff : List (Move Proc PeerWrapper.Action) :=
  [.act 0 .starts, .act 0 (.returns 0), .act 0 (.receives 0), .act 0 (.returns 0),
    .act 0 (.receives 0), .act 0 (.closes none), .act 0 (.emits none)]

def stageOf (c : Config Hub Proc) : Option PeerWrapper.Stage :=
  match c.procs with
  | .wrapper w :: _ => some w.stage
  | _ => none

theorem hostile_peer_contained_cutOff :
    ∃ c', run (program id .files) (start smallHub (newWrapper 7 somePeer true none [0, 0, 0, 1, 2, 0]))
        cutOff = some c' ∧
      ∃ hub' w', c' = start hub' w' ∧ CleanedUp 7 0 0 hub' w' ∧ w'.stage = .returned ∧
        Allowed (program id .files) (Contained .files)
          (start smallHub (newWrapper 7 somePeer true none [0, 0, 0, 1, 2, 0])) cutOff := by
  obtain ⟨c', hrun, hstage⟩ : ∃ c', run (program id .files)
      (start smallHub (newWrapper 7 somePeer true none [0, 0, 0, 1, 2, 0])) cutOff = some c' ∧
        stageOf c' = some .returned := ⟨_, rfl, rfl⟩
  have hok : Allowed (program id .files) (Apart 7)
      (start smallHub (newWrapper 7 somePeer true none [0, 0, 0, 1, 2, 0])) cutOff := by
    refine allowed_of_forall fun m hm c => ?_
    simp only [cutOff, List.mem_cons, List.not_mem_nil, or_false] at hm
    rcases hm with rfl | rfl | rfl | rfl | rfl | rfl | rfl <;> trivial
  obtain ⟨hub', w', rfl, -, hover⟩ := (hostile_peer_contained id .files
    (smallHub_expected 7 somePeer) true none [0, 0, 0, 1, 2, 0]).1 cutOff c' hok hrun
  have hreturned : w'.stage = .returned := Option.some.inj hstage
  obtain ⟨hclean, hiff⟩ := hover (by rw [hreturned]; rfl)
  obtain ⟨-, hwhy⟩ := hiff.mp hreturned
  refine ⟨_, hrun, hub', w', rfl, hclean, hreturned, hwhy.resolve_right ?_⟩
  simp [Masked, cutOff]

/-- A peer that sends a message with an unknown id ends its task with a `ValueError`. -/
theorem unknown_id_raises :
    ∃ c', run (program id .files) (start smallHub (newWrapper 7 somePeer true none [0, 0, 0, 1, 9]))
        [.act 0 .starts, .act 0 (.returns 0), .act 0 (.receives 0), .act 0 (.closes none),
          .act 0 (.emits none)] = some c' ∧
      ∃ hub' w', c' = start hub' w' ∧ w'.stage = .raised .valueError :=
  ⟨_, rfl, _, _, rfl, rfl⟩

end HostilePeers
