import Aiobt.EngineTurns
import Aiobt.WireFraming
import Aiobt.PeerRegistry
import Mathlib.Data.Prod.Lex

/-! # The task of a peer

`_run_peer_wrapper` around `run_peer`, on the bytes that the remote sends, with the exceptions that
their handlers tell apart. The steps of `run_peer` are those of the engine; anything else may happen
to what the tasks share between two of them. -/
namespace PeerWrapper

open ByteStrings PieceTracker PieceEngine PeerMessages WireFraming InterleavedProcesses
open PeerRegistry (Registry)

inductive Exn where
  | incompleteRead
  /-- `OSError` with all that is derived from it, `ConnectionError` included. -/
  | osError
  | structError
  | valueError
  | other
  deriving DecidableEq, Repr

def caughtByRunPeer : Exn → Bool
  | .incompleteRead => true
  | .osError => true
  | _ => false

def caughtByWrapper : Exn → Bool
  | .osError => true
  | _ => false

structure Hub where
  session : Session
  registry : Registry
  disconnected : List ℕ

inductive Stage where
  | running
  | emitting
  | returned
  | raised (e : Exn)
  deriving DecidableEq, Repr

def Stage.over : Stage → Bool
  | .returned => true
  | .raised _ => true
  | _ => false

structure Wrapper where
  conn : ℕ
  task : Task
  /-- What the remote has sent, up to the end of the stream, and was not read yet. -/
  wire : Bytes
  /-- The exception that is on its way through the `finally` blocks. -/
  leaving : Option Exn
  stage : Stage

inductive Action where
  | starts
  /-- The next message is read, or the end of the stream is found. -/
  | receives (hint : ℕ)
  | returns (hint : ℕ)
  | raises (e : Exn)
  | fetches
  | cancels (addr : Address) (connected : Bool) (hint : ℕ)
  | closes (outcome : Option Exn)
  /-- The emission of `PEER_DISCONNECTED` returns or raises. -/
  | emits (outcome : Option Exn)
  | stores (k : ℕ)
  | rechokes (amChoking : Bool)
  | changes (hub : Hub)

inductive Proc where
  | wrapper (w : Wrapper)
  | world

def packs (msg : Message) : Bool :=
  match encodeMessage msg with
  | .ok _ => true
  | .error _ => false

def sending (t t' : Task) : Option Message :=
  if t'.log.length ≤ t.log.length then none
  else
    match t'.log.getLast? with
    | some (.sent msg) => some msg
    | _ => none

/-- What a step of the message loop has raised: a message that cannot be packed, or an exception
between two awaits. -/
def raisedBy (t t' : Task) (failure : Exn) : Option Exn :=
  if (sending t t').any fun msg => !packs msg then some .structError
  else if t'.point = .disconnect then some failure
  else none

/-- `run_peer` is left for its `finally` block where a message cannot be packed. -/
def settle (t : Task) (failure : Exn) (next : Session × Task) : Session × Task × Option Exn :=
  match raisedBy t next.2 failure with
  | some .structError => ((cleanup next.1 next.2).1, (cleanup next.1 next.2).2, some .structError)
  | outcome => (next.1, next.2, outcome)

def leave (s : Session) (t : Task) (e : Exn) : Session × Task × Option Exn :=
  ((cleanup s t).1, (cleanup s t).2, some e)

section
variable (sha1 : Bytes → Bytes) (kind : StorageKind)

def receive (hint : ℕ) (s : Session) (t : Task) (wire : Bytes) :
    (Session × Task × Option Exn) × Bytes :=
  match receiveMessage (some wire) with
  | .ok (msg, rest) => (settle t .other (onMessage sha1 hint s t msg), rest.getD [])
  | .error (.incompleteRead _) => (leave s t .incompleteRead, wire)
  | .error (.message .structError) => (leave s t .structError, wire)
  | .error (.message (.unknownMessageId _)) => (leave s t .valueError, wire)
  | .error .notConnected => (leave s t .other, wire)

/-- A short read raises `OSError`. -/
def failureOf (t : Task) : Exn :=
  match t.point with
  | .read _ _ _ _ _ => .osError
  | _ => .other

/-- `send_message` in the Cancel broadcast; its `ConnectionError`s and `OSError`s are caught there. -/
def broadcast (addr : Address) (connected : Bool) (hint : ℕ) (s : Session) (t : Task) :
    Option (Session × Task × Option Exn) :=
  match t.point with
  | .sendCancel index spec _ offset left =>
    if connected ∧ addr ∈ left ∧ packs (.cancel index offset (blockLen spec offset)) = false then
      some (leave s t .structError)
    else (cancelStep addr connected hint s t).map (settle t .other)
  | _ => none

def awaitRaises (e : Exn) (s : Session) (t : Task) : Option (Session × Task × Option Exn) :=
  match t.point with
  | .starting => none
  | .disconnect => none
  | .ended => none
  | .sendCancel _ _ _ _ _ => if caughtByWrapper e then none else some (leave s t e)
  | _ => some (leave s t e)

/-- A step of `run_peer`, and the exception that it raises in the `try` block. -/
def runPeer (a : Action) (s : Session) (w : Wrapper) :
    Option ((Session × Task × Option Exn) × Bytes) :=
  match a with
  | .starts => (taskStep sha1 kind .starts s w.task).map fun next =>
      (settle w.task .other next, w.wire)
  | .receives hint =>
    match w.task.point with
    | .receive => some (receive sha1 hint s w.task w.wire)
    | _ => none
  | .returns hint =>
    match w.task.point with
    | .disconnect => none
    | _ => (resume kind hint s w.task).map fun next =>
        (settle w.task (failureOf w.task) next, w.wire)
  | .raises e => (awaitRaises e s w.task).map fun next => (next, w.wire)
  | .fetches => (taskStep sha1 kind .fetches s w.task).map fun next =>
      ((next.1, next.2, none), w.wire)
  | .cancels addr connected hint => (broadcast addr connected hint s w.task).map fun next =>
      (next, w.wire)
  | .stores k => (taskStep sha1 kind (.stores k) s w.task).map fun next =>
      ((next.1, next.2, none), w.wire)
  | .rechokes amChoking => (taskStep sha1 kind (.rechokes amChoking) s w.task).map fun next =>
      ((next.1, next.2, none), w.wire)
  | _ => none

def escapes (e : Exn) : Option Exn := if caughtByRunPeer e then none else some e

def leavingAfter (leaving raised : Option Exn) : Option Exn :=
  match raised with
  | none => leaving
  | some e => escapes e

/-- What the wrapper does before it calls `run_peer`. -/
def begin (a : Action) (hub : Hub) (w : Wrapper) : Hub :=
  match a with
  | .starts => { hub with registry := { hub.registry with
      stats := Function.update hub.registry.stats w.task.addr (some w.conn) } }
  | _ => hub

/-- The `finally` block of the wrapper up to its await, behind the disconnection. -/
def finish (hub : Hub) (w : Wrapper) (outcome : Option Exn) : Hub × Wrapper :=
  let session := { hub.session with
    bytesDownloaded := hub.session.bytesDownloaded + w.task.bytesDownloaded
    bytesUploaded := hub.session.bytesUploaded + w.task.bytesUploaded }
  let leaving := outcome <|> w.leaving
  ({ session := session
     registry := PeerRegistry.cleanup hub.registry w.task.addr
     disconnected := hub.disconnected ++ [w.conn] },
   { w with
     task := w.task.goto .ended
     leaving := if leaving.any caughtByWrapper then none else leaving
     stage := .emitting })

def wrapperStep (a : Action) (hub : Hub) (w : Wrapper) : Option (Hub × Wrapper) :=
  match w.stage, a with
  | .running, .closes outcome =>
    match w.task.point with
    | .disconnect => some (finish hub w outcome)
    | _ => none
  | .running, a =>
    (runPeer sha1 kind a hub.session w).map fun next =>
      ({ begin a hub w with session := next.1.1 },
        { w with
          task := next.1.2.1
          wire := next.2
          leaving := leavingAfter w.leaving next.1.2.2 })
  | .emitting, .emits outcome =>
    match outcome <|> w.leaving with
    | some e => some (hub, { w with stage := .raised e })
    | none => some (hub, { w with stage := .returned })
  | _, _ => none

def program : Program Hub Proc Action
  | .changes hub, _, .world => some (hub, .world)
  | .changes _, _, .wrapper _ => none
  | a, hub, .wrapper w => (wrapperStep sha1 kind a hub w).map fun next => (next.1, .wrapper next.2)
  | _, _, .world => none

end

/-- Between two messages a task only goes down, or stays at its level with less to do. -/
def level : Await → ℕ
  | .starting => 13
  | .sendBitfield => 12
  | .write _ _ _ => 11
  | .emitVerified _ _ => 10
  | .sendHave _ _ => 9
  | .sendCancel _ _ _ _ _ => 8
  | .emitCompleted => 7
  | .sendNotInterested => 6
  | .sendRequest _ _ => 5
  | .read _ _ _ _ _ => 5
  | .sendInterested => 4
  | .sendUnchoke => 4
  | .sendPiece _ => 4
  | .receive => 3
  | .disconnect => 2
  | .ended => 2

def remaining : Await → ℕ
  | .sendRequest spec offset => (spec.length - offset).toNat
  | .read _ _ length _ data => length - data.length
  | .sendCancel _ spec addrs offset left =>
    (spec.length - offset).toNat * (addrs.card + 1) + left.card
  | _ => 0

/-- Lexicographic: the bytes that are still to be read, the level, and what remains on it. -/
def distance (w : Wrapper) : ℕ × ℕ × ℕ :=
  match w.stage with
  | .running => (w.wire.length, level w.task.point, remaining w.task.point)
  | .emitting => (w.wire.length, 1, 0)
  | _ => (w.wire.length, 0, 0)

def Nearer : ℕ × ℕ × ℕ → ℕ × ℕ × ℕ → Prop := Prod.Lex (· < ·) (Prod.Lex (· < ·) (· < ·))

theorem nearer_wellFounded : WellFounded Nearer :=
  WellFounded.prod_lex Nat.lt_wfRel.wf (WellFounded.prod_lex Nat.lt_wfRel.wf Nat.lt_wfRel.wf)

def Action.own : Action → Bool
  | .stores _ => false
  | .rechokes _ => false
  | .changes _ => false
  | _ => true

def Falls (p p' : Await) : Prop :=
  Prod.Lex (· < ·) (· < ·) (level p', remaining p') (level p, remaining p)

variable {sha1 : Bytes → Bytes} {kind : StorageKind} {hint : ℕ} {s s' : Session} {t t' : Task}
  {p p' : Await}

theorem Falls.of_level (h : level p' < level p) : Falls p p' := Prod.Lex.left _ _ h

theorem nextPiece_level (hint : ℕ) (s : Session) (t : Task) :
    level (nextPiece hint s t).2.point ≤ 5 := by
  have hrequest : ∀ t spec, level (requestFrom t spec 0).point ≤ 5 := by
    intro t spec
    unfold requestFrom
    split
    · exact Nat.le_refl 5
    · show 3 ≤ 5
      omega
  unfold nextPiece
  split
  · show 3 ≤ 5
    omega
  · exact hrequest _ _
  · show 2 ≤ 5
    omega

theorem finishPiece_level (hint : ℕ) (s : Session) (t : Task) :
    level (finishPiece hint s t).2.point ≤ 7 := by
  unfold finishPiece
  split
  · exact Nat.le_refl 7
  · split
    · show 3 ≤ 7
      omega
    · have := nextPiece_level hint s t.dropPiece
      omega

theorem blockLen_pos {spec : PieceSpec} {offset : ℕ} (h : (offset : ℤ) < spec.length) :
    0 < blockLen spec offset := by
  unfold blockLen blockSize
  omega

/-- The next Cancel message is nearer to the end, at the next offset or not. -/
theorem cancelFrom_falls {index : ℕ} {spec : PieceSpec} {addrs : Finset Address} (offset : ℕ)
    (left : Finset Address)
    (hpoint : p = .sendHave index spec ∨ p = .sendCancel index spec addrs offset left)
    (next : ℕ) (hnext : p = .sendCancel index spec addrs offset left →
      next = offset + blockLen spec offset) :
    Falls p (cancelFrom hint s t index spec addrs next).2.point := by
  have hlevel : 8 ≤ level p := by
    rcases hpoint with rfl | rfl
    · show 8 ≤ 9
      omega
    · exact Nat.le_refl 8
  unfold cancelFrom
  split
  · next hmore =>
    rcases hpoint with rfl | rfl
    · exact .of_level (by show 8 < 9; omega)
    · obtain rfl := hnext rfl
      have hpos : 0 < blockLen spec offset := blockLen_pos (by omega)
      refine Prod.Lex.right _ ?_
      show (spec.length - ((offset + blockLen spec offset : ℕ) : ℤ)).toNat * (addrs.card + 1) +
        addrs.card < (spec.length - offset).toNat * (addrs.card + 1) + left.card
      have hless : (spec.length - ((offset + blockLen spec offset : ℕ) : ℤ)).toNat + 1 ≤
          (spec.length - offset).toNat := by omega
      have hmul := Nat.mul_le_mul_right (addrs.card + 1) hless
      rw [Nat.add_mul, Nat.one_mul] at hmul
      omega
  · have := finishPiece_level hint s t
    exact .of_level (by omega)

theorem cancelStep_falls {addr : Address} {connected : Bool}
    (h : cancelStep addr connected hint s t = some (s', t')) : Falls t.point t'.point := by
  unfold cancelStep at h
  split at h
  · next index spec addrs offset left hp =>
    split at h
    · next hmem =>
      simp only at h
      split at h
      · obtain ⟨-, rfl⟩ := Prod.mk.inj (Option.some.inj h)
        rw [hp]
        refine Prod.Lex.right _ (Nat.add_lt_add_left ?_ _)
        exact Finset.card_erase_lt_of_mem hmem
      · have ht : t' = _ := (congrArg Prod.snd (Option.some.inj h)).symm
        rw [ht, hp]
        exact cancelFrom_falls offset left (Or.inr rfl) _ fun _ => rfl
    · cases h
  · cases h

theorem resume_falls (hp : t.point ≠ .disconnect) (h : resume kind hint s t = some (s', t')) :
    Falls t.point t'.point := by
  unfold resume at h
  split at h
  case h_4 spec offset hpoint =>
    obtain ⟨-, rfl⟩ := Prod.mk.inj (Option.some.inj h)
    rw [hpoint]
    unfold requestFrom
    split
    · next hmore =>
      have hpos : 0 < blockLen spec offset := blockLen_pos (by omega)
      refine Prod.Lex.right _ ?_
      show (spec.length - ((offset + blockLen spec offset : ℕ) : ℤ)).toNat <
        (spec.length - offset).toNat
      omega
    · exact .of_level (by show 3 < 5; omega)
  case h_5 index begin length offset data hpoint =>
    rw [hpoint]
    split at h
    · cases h
    · split at h
      · obtain ⟨-, rfl⟩ := Prod.mk.inj (Option.some.inj h)
        exact .of_level (by show 2 < 5; omega)
      · obtain ⟨-, rfl⟩ := Prod.mk.inj (Option.some.inj h)
        exact .of_level (by show 4 < 5; omega)
  case h_9 index spec hpoint =>
    have ht : t' = _ := (congrArg Prod.snd (Option.some.inj h)).symm
    rw [ht, hpoint]
    unfold afterHave
    split
    · exact cancelFrom_falls 0 ∅ (Or.inl rfl) _ fun hno => by cases hno
    · have := finishPiece_level hint s t
      exact .of_level (show _ < 9 by omega)
  case h_12 hpoint => exact absurd hpoint hp
  case h_13 => cases h
  all_goals
    obtain ⟨-, rfl⟩ := Prod.mk.inj (Option.some.inj h)
    rename_i hpoint
    rw [hpoint]
    exact .of_level (by simp [level, Task.goto, Task.send])

variable {a : Action} {e failure : Exn} {w w' : Wrapper} {hub hub' : Hub}

theorem settle_cases (t : Task) (failure : Exn) (next : Session × Task) :
    settle t failure next = (next.1, next.2, raisedBy t next.2 failure) ∨
      settle t failure next =
        ((cleanup next.1 next.2).1, (cleanup next.1 next.2).2, some .structError) := by
  unfold settle
  split
  · exact Or.inr rfl
  · exact Or.inl rfl

theorem settle_falls {next : Session × Task} (hlevel : 2 < level p) (h : Falls p next.2.point) :
    Falls p (settle t failure next).2.1.point := by
  rcases settle_cases t failure next with heq | heq
  · rw [heq]
    exact h
  · rw [heq]
    exact .of_level hlevel

theorem level_gt (hdis : p ≠ .disconnect) (hend : p ≠ .ended) : 2 < level p := by
  cases p with
  | disconnect => exact absurd rfl hdis
  | ended => exact absurd rfl hend
  | _ => simp [level]

theorem awaitRaises_eq {r : Session × Task × Option Exn} (h : awaitRaises e s t = some r) :
    t.point ≠ .starting ∧ t.point ≠ .disconnect ∧ t.point ≠ .ended ∧ r = leave s t e := by
  unfold awaitRaises at h
  split at h
  case h_1 => cases h
  case h_2 => cases h
  case h_3 => cases h
  case h_4 hp =>
    split at h
    · cases h
    · refine ⟨?_, ?_, ?_, (Option.some.inj h).symm⟩ <;> simp [hp]
  case h_5 hstart hdis hend _ => exact ⟨hstart, hdis, hend, (Option.some.inj h).symm⟩

theorem receive_wire (sha1 : Bytes → Bytes) (hint : ℕ) (s : Session) (t : Task) (wire : Bytes) :
    (receive sha1 hint s t wire).2.length < wire.length ∨
      (receive sha1 hint s t wire).2 = wire ∧
        ∃ e, (receive sha1 hint s t wire).1 = leave s t e := by
  unfold receive
  cases hreceived : receiveMessage (some wire) with
  | ok next =>
    obtain ⟨-, rest, hrest, hless⟩ := receiveMessage_ok hreceived
    simp only [hrest, Option.getD_some]
    exact Or.inl (by omega)
  | error err =>
    refine Or.inr ?_
    cases err with
    | notConnected => exact ⟨rfl, _, rfl⟩
    | incompleteRead err => exact ⟨rfl, _, rfl⟩
    | message err =>
      cases err with
      | structError => exact ⟨rfl, _, rfl⟩
      | unknownMessageId id => exact ⟨rfl, _, rfl⟩

theorem broadcast_falls {addr : Address} {connected : Bool} {r : Session × Task × Option Exn}
    (h : broadcast addr connected hint s t = some r) : Falls t.point r.2.1.point := by
  unfold broadcast at h
  split at h
  · next hp =>
    have hlevel : 2 < level t.point := by
      rw [hp]
      show 2 < 8
      omega
    split at h
    · obtain rfl := Option.some.inj h
      exact .of_level hlevel
    · obtain ⟨next, hnext, rfl⟩ := Option.map_eq_some_iff.mp h
      exact settle_falls hlevel (cancelStep_falls hnext)
  · cases h

/-- A step of `run_peer` reads bytes or gets nearer to the end. -/
theorem runPeer_nearer {next : Session × Task × Option Exn} {wire : Bytes} (hown : a.own = true)
    (h : runPeer sha1 kind a s w = some (next, wire)) :
    wire.length < w.wire.length ∨ wire = w.wire ∧ Falls w.task.point next.2.1.point := by
  cases a with
  | starts =>
    obtain ⟨next', hstep, heq⟩ := Option.map_eq_some_iff.mp h
    obtain ⟨rfl, rfl⟩ := Prod.mk.inj heq
    refine Or.inr ⟨rfl, ?_⟩
    simp only [taskStep] at hstep
    split at hstep
    · next hp =>
      have hlevel : 2 < level w.task.point := by
        rw [hp]
        show 2 < 13
        omega
      refine settle_falls hlevel (.of_level ?_)
      rw [hp]
      split at hstep
      · obtain rfl := Option.some.inj hstep
        show 2 < 13
        omega
      · obtain rfl := Option.some.inj hstep
        show 12 < 13
        omega
    · cases hstep
  | receives hint =>
    simp only [runPeer] at h
    split at h
    · next hp =>
      have heq := Option.some.inj h
      rcases receive_wire sha1 hint s w.task w.wire with hless | ⟨hsame, e, hleave⟩
      · rw [heq] at hless
        exact Or.inl hless
      · rw [heq] at hsame hleave
        refine Or.inr ⟨hsame, ?_⟩
        rw [show next = leave s w.task e from hleave, hp]
        exact .of_level (by show 2 < 3; omega)
    · cases h
  | returns hint =>
    simp only [runPeer] at h
    split at h
    · cases h
    · next hdis =>
      obtain ⟨next', hstep, heq⟩ := Option.map_eq_some_iff.mp h
      obtain ⟨rfl, rfl⟩ := Prod.mk.inj heq
      have hend : w.task.point ≠ .ended := fun hp => by simp [resume, hp] at hstep
      exact Or.inr ⟨rfl, settle_falls (level_gt hdis hend) (resume_falls hdis hstep)⟩
  | raises e =>
    obtain ⟨r, hraises, heq⟩ := Option.map_eq_some_iff.mp h
    obtain ⟨rfl, rfl⟩ := Prod.mk.inj heq
    obtain ⟨-, hdis, hend, rfl⟩ := awaitRaises_eq hraises
    exact Or.inr ⟨rfl, .of_level (level_gt hdis hend)⟩
  | fetches =>
    obtain ⟨next', hstep, heq⟩ := Option.map_eq_some_iff.mp h
    obtain ⟨rfl, rfl⟩ := Prod.mk.inj heq
    refine Or.inr ⟨rfl, ?_⟩
    simp only [taskStep] at hstep
    split at hstep
    · next index begin length offset data hp =>
      obtain ⟨byte, hbyte, rfl⟩ := Option.map_eq_some_iff.mp hstep
      have hmore : (data.length : ℤ) < length := by
        by_contra hno
        rw [fetchByte, if_neg fun hboth => hno hboth.1] at hbyte
        cases hbyte
      rw [hp]
      refine Prod.Lex.right _ ?_
      show length - (data ++ [byte]).length < length - data.length
      rw [List.length_append, List.length_singleton]
      omega
    · cases hstep
  | cancels addr connected hint =>
    obtain ⟨r, hcancels, heq⟩ := Option.map_eq_some_iff.mp h
    obtain ⟨rfl, rfl⟩ := Prod.mk.inj heq
    exact Or.inr ⟨rfl, broadcast_falls hcancels⟩
  | closes _ => cases h
  | emits _ => cases h
  | stores _ => cases hown
  | rechokes _ => cases hown
  | changes _ => cases hown

/-- A step is one of `run_peer`, the clean-up, or the end of the emission. -/
inductive Step (sha1 : Bytes → Bytes) (kind : StorageKind) (a : Action) (hub : Hub) (w : Wrapper) :
    Hub → Wrapper → Prop where
  | runs {next wire} : w.stage = .running → runPeer sha1 kind a hub.session w = some (next, wire) →
      Step sha1 kind a hub w { begin a hub w with session := next.1 }
        { w with
          task := next.2.1
          wire := wire
          leaving := leavingAfter w.leaving next.2.2 }
  | closes {outcome} : a = .closes outcome → w.stage = .running → w.task.point = .disconnect →
      Step sha1 kind a hub w (finish hub w outcome).1 (finish hub w outcome).2
  | raises {outcome e} : a = .emits outcome → w.stage = .emitting →
      (outcome <|> w.leaving) = some e → Step sha1 kind a hub w hub { w with stage := .raised e }
  | returns {outcome} : a = .emits outcome → w.stage = .emitting →
      (outcome <|> w.leaving) = none → Step sha1 kind a hub w hub { w with stage := .returned }

theorem wrapperStep_step (h : wrapperStep sha1 kind a hub w = some (hub', w')) :
    Step sha1 kind a hub w hub' w' := by
  unfold wrapperStep at h
  split at h
  case h_1 outcome hstage =>
    split at h
    · next hp =>
      obtain ⟨rfl, rfl⟩ := Prod.mk.inj (Option.some.inj h)
      exact .closes rfl hstage hp
    · cases h
  case h_2 a hstage _ =>
    obtain ⟨next, hnext, heq⟩ := Option.map_eq_some_iff.mp h
    obtain ⟨rfl, rfl⟩ := Prod.mk.inj heq
    exact .runs hstage hnext
  case h_3 outcome hstage =>
    split at h
    · next e hleaving =>
      obtain ⟨rfl, rfl⟩ := Prod.mk.inj (Option.some.inj h)
      exact .raises rfl hstage hleaving
    · next hleaving =>
      obtain ⟨rfl, rfl⟩ := Prod.mk.inj (Option.some.inj h)
      exact .returns rfl hstage hleaving
  case h_4 => cases h

theorem wrapperStep_nearer (hown : a.own = true)
    (h : wrapperStep sha1 kind a hub w = some (hub', w')) : Nearer (distance w') (distance w) := by
  cases wrapperStep_step h with
  | @runs next wire hstage hnext =>
    simp only [distance, hstage]
    rcases runPeer_nearer hown hnext with hless | ⟨rfl, hfalls⟩
    · exact Prod.Lex.left _ _ hless
    · exact Prod.Lex.right _ hfalls
  | closes _ hstage hp =>
    simp only [distance, hstage, finish, hp]
    exact Prod.Lex.right _ (Prod.Lex.left _ _ (by show 1 < 2; omega))
  | raises _ hstage _ =>
    simp only [distance, hstage]
    exact Prod.Lex.right _ (Prod.Lex.left _ _ Nat.one_pos)
  | returns _ hstage _ =>
    simp only [distance, hstage]
    exact Prod.Lex.right _ (Prod.Lex.left _ _ Nat.one_pos)

/-- What others do does not take it away from there. -/
theorem wrapperStep_distance (hown : a.own = false)
    (h : wrapperStep sha1 kind a hub w = some (hub', w')) : distance w' = distance w := by
  cases wrapperStep_step h with
  | @runs next wire hstage hnext =>
    simp only [distance, hstage]
    cases a with
    | stores k =>
      obtain ⟨next', hstep, heq⟩ := Option.map_eq_some_iff.mp hnext
      obtain ⟨rfl, rfl⟩ := Prod.mk.inj heq
      simp only [taskStep] at hstep
      split at hstep
      · obtain ⟨byte, -, rfl⟩ := Option.map_eq_some_iff.mp hstep
        rfl
      · cases hstep
    | rechokes amChoking =>
      obtain ⟨next', hstep, heq⟩ := Option.map_eq_some_iff.mp hnext
      obtain ⟨rfl, rfl⟩ := Prod.mk.inj heq
      simp only [taskStep] at hstep
      split at hstep
      · cases hstep
      · obtain rfl := Option.some.inj hstep
        rfl
    | changes hub => cases hnext
    | _ => cases hown
  | closes ha => rw [ha] at hown; cases hown
  | raises ha => rw [ha] at hown; cases hown
  | returns ha => rw [ha] at hown; cases hown

end PeerWrapper
