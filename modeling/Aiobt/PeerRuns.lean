import Aiobt.EngineTurns

/-! # Runs of peer tasks

Any number of `run_peer` tasks share a session. A run starts before the first peer is connected; a
condition may be put on the actions of the tasks. -/
namespace PeerRuns

open ByteStrings PieceTracker PeerMessages PieceEngine SessionTasks PieceSearch EngineTurns
open InterleavedProcesses

section
variable (sha1 : Bytes → Bytes)

def failsHash (t : Task) : Action → Bool
  | .receives (.piece index begin block) _ =>
    let blocks := setBlock t.pieceBlocks begin block
    decide (t.point = .receive ∧ t.currentPiece = some index) &&
      t.pieceSpec.any fun spec => pieceComplete blocks spec.length &&
        (assemblePiece blocks spec.length).any fun assembled => !verifyPiece sha1 assembled spec.hash
  | _ => false

def movesOn (s : Session) (t : Task) (a : Action) : Bool := ends a s t || failsHash sha1 t a

end

theorem failsHash_receives {sha1 : Bytes → Bytes} {t : Task} {index begin hint : ℕ}
    {block assembled : Bytes} {spec : PieceSpec} (hp : t.point = .receive)
    (hcur : t.currentPiece = some index) (hspec : t.pieceSpec = some spec)
    (hfull : pieceComplete (setBlock t.pieceBlocks begin block) spec.length = true)
    (hassembled : assemblePiece (setBlock t.pieceBlocks begin block) spec.length = some assembled)
    (hverify : verifyPiece sha1 assembled spec.hash = false) :
    failsHash sha1 t (.receives (.piece index begin block) hint) = true := by
  simp [failsHash, hp, hcur, hspec, hfull, hassembled, hverify]

def writtenPiece (t : Task) : Action → Option ℕ
  | .returns _ =>
    match t.point with
    | .write index _ _ => some index
    | _ => none
  | _ => none

/-- A session to which no peer has been connected. Pieces may be had from before. -/
structure Idle (s : Session) : Prop where
  specs : s.tracker.specs.length = s.tracker.pieceCount.toNat
  got : s.tracker.got ⊆ Finset.range s.tracker.pieceCount.toNat
  pending : s.tracker.pending = ∅
  availability : ∀ i, s.tracker.availability i = none
  endgame : s.endgame = .new
  events : s.events = []

/-- Tasks come without a history, and each action meets a condition. -/
def Moves (cond : Session → List Task → ℕ → Task → Action → Prop) (c : Config Session Task) :
    Move Task Action → Prop
  | .spawn t => t = newTask t.addr t.endgameGiven t.rates
  | .act i a => ∀ t ∈ c.procs[i]?, cond c.shared c.procs i t a

instance {cond : Session → List Task → ℕ → Task → Action → Prop}
    [∀ s procs i t a, Decidable (cond s procs i t a)] (c : Config Session Task) :
    (m : Move Task Action) → Decidable (Moves cond c m)
  | .spawn t => inferInstanceAs (Decidable (t = newTask t.addr t.endgameGiven t.rates))
  | .act i _ => inferInstanceAs (Decidable (∀ t ∈ c.procs[i]?, _))

def newTorrent (pieceLength totalLength : ℤ) (piecesRaw : Bytes) : Option Session :=
  (init pieceLength totalLength piecesRaw).map fun tracker =>
    newSession tracker (List.replicate totalLength.toNat 0)

def Resting (t : Task) : Prop := t.point = .starting ∨ t.point = .receive ∨ t.point = .ended

instance (t : Task) : Decidable (Resting t) := inferInstanceAs (Decidable (_ ∨ _))

/-- The `i`-th peer connects and announces pieces, and interest is expressed. -/
def joins (i : ℕ) (bits : Bytes) : List (Move Task Action) :=
  [.spawn (newTask ⟨[i], 6881⟩ true none), .act i .starts, .act i (.returns 0),
    .act i (.receives (.bitfield bits) 0), .act i (.returns 0)]

/-- The `i`-th peer unchokes, and the one Request of a small piece is sent. -/
def unchokes (i : ℕ) : List (Move Task Action) := [.act i (.receives .unchoke 0), .act i (.returns 0)]

/-- The `i`-th peer sends a whole piece, which is written and announced. -/
def sends (i index : ℕ) (piece : Bytes) : List (Move Task Action) :=
  [.act i (.receives (.piece index 0 piece) 0), .act i (.returns 0), .act i (.returns 0)]

def delivery : List (Move Task Action) :=
  joins 0 [128] ++ unchokes 0 ++ sends 0 0 (List.replicate 20 7) ++
    [.act 0 (.returns 0), .act 0 (.returns 0), .act 0 (.returns 0)]

section
variable {sha1 : Bytes → Bytes} {kind : StorageKind} {s₀ : Session} {c : Config Session Task}
  {cond : Session → List Task → ℕ → Task → Action → Prop} {i : ℕ} {t : Task}

/-- In every run the tasks know their pieces, whose specifications stay the same. -/
theorem tasks_ok (h : Reach (taskStep sha1 kind) (Moves cond) ⟨s₀, []⟩ c) :
    c.shared.tracker.specs = s₀.tracker.specs ∧
      ∀ t ∈ c.procs, TaskOk sha1 s₀.tracker.specs t := by
  refine h.rely_guarantee (G := fun s => s.tracker.specs = s₀.tracker.specs)
    (L := fun _ => TaskOk sha1 s₀.tracker.specs) (R := fun _ _ => True) rfl (by simp) ?_ ?_ ?_
  · intro c p _ hnew
    have hnew : p = newTask p.addr p.endgameGiven p.rates := hnew
    rw [hnew]
    exact newTask_taskOk _ _ _ _
  · intro c i a t s t' _ _ hspecs hok hstep
    rw [← hspecs] at hok ⊢
    obtain ⟨hsame, hok'⟩ := (turn_of_step hstep).taskOk hok
    exact ⟨hsame, hok', trivial⟩
  · intro _ _ _ _ _ hok
    exact hok

/-- What holds before the first peer and is kept by new tasks and by every turn that meets the
condition holds in every reachable state. -/
theorem peers_invariant {I : Session → List Task → Prop}
    (h : Reach (taskStep sha1 kind) (Moves cond) ⟨s₀, []⟩ c) (hstart : I s₀ [])
    (hspawn : ∀ s procs addr given rates, I s procs → I s (procs ++ [newTask addr given rates]))
    (hturn : ∀ s procs i t a s' t', I s procs → procs[i]? = some t → cond s procs i t a →
      TaskOk sha1 s.tracker.specs t → Turn sha1 kind a s t s' t' → I s' (procs.set i t')) :
    I c.shared c.procs := by
  have hall : I c.shared c.procs ∧ c.shared.tracker.specs = s₀.tracker.specs ∧
      ∀ t ∈ c.procs, TaskOk sha1 s₀.tracker.specs t := by
    refine ⟨?_, tasks_ok h⟩
    induction h with
    | refl => exact hstart
    | @next c c' m hreach hok happ ih =>
      cases m with
      | spawn t =>
        rw [apply_spawn happ]
        have hnew : t = newTask t.addr t.endgameGiven t.rates := hok
        rw [hnew]
        exact hspawn _ _ _ _ _ ih
      | act i a =>
        obtain ⟨t, s, t', ht, hs, rfl⟩ := apply_act happ
        obtain ⟨hspecs, htasks⟩ := tasks_ok hreach
        refine hturn _ _ i t a s t' ih ht (hok t ht) ?_ (turn_of_step hs)
        rw [hspecs]
        exact htasks t (List.mem_of_getElem? ht)
  exact hall.1

theorem idle_of_newTorrent {pieceLength totalLength : ℤ} {raw : Bytes}
    (h : newTorrent pieceLength totalLength raw = some s₀) : Idle s₀ := by
  obtain ⟨tr, htr, rfl⟩ := Option.map_eq_some_iff.mp h
  obtain ⟨-, -, -, hgot, hpending, havailability⟩ := specs_eq_of_init htr
  refine ⟨specs_length htr, ?_, hpending, havailability, rfl, rfl⟩
  rw [show (newSession tr _).tracker.got = ∅ from hgot]
  exact Finset.empty_subset _

def Owns (i : ℕ) (t : Task) : Prop := Live t ∧ t.currentPiece = some i

instance (i : ℕ) (t : Task) : Decidable (Owns i t) := inferInstanceAs (Decidable (_ ∧ _))

theorem not_owns_of_current {p : ℕ} (hcur : t.currentPiece = some p) (hne : i ≠ p) : ¬ Owns i t :=
  fun h => hne (Option.some.inj (h.2.symm.trans hcur))

theorem not_owns_of_none (hcur : t.currentPiece = none) : ¬ Owns i t := fun h => by
  rw [Owns, hcur] at h
  cases h.2

variable {procs : List Task} {t' : Task} {P : Task → Prop}

/-- What some task had still holds of a task, unless it was the one that moved. -/
theorem exists_set (hi : procs[i]? = some t) (h : ∃ u ∈ procs, P u) (hmove : P t → P t') :
    ∃ u ∈ procs.set i t', P u := by
  obtain ⟨u, hu, hP⟩ := h
  obtain ⟨j, hj, rfl⟩ := List.mem_iff_getElem.mp hu
  obtain ⟨hlt, hat⟩ := List.getElem?_eq_some_iff.mp hi
  by_cases hij : i = j
  · subst hij
    rw [hat] at hP
    exact ⟨t', List.mem_set hlt t', hmove hP⟩
  · refine ⟨procs[j], ?_, hP⟩
    have hset : (procs.set i t')[j]? = some procs[j] := by
      rw [List.getElem?_set_ne hij, List.getElem?_eq_getElem hj]
    exact List.mem_of_getElem? hset

theorem mem_set_self (hi : procs[i]? = some t) : t' ∈ procs.set i t' :=
  List.mem_set (List.getElem?_eq_some_iff.mp hi).1 t'

theorem mem_set_of_ne {j : ℕ} {u : Task} (hj : procs[j]? = some u) (hne : j ≠ i) :
    u ∈ procs.set i t' := by
  refine List.mem_of_getElem? (i := j) ?_
  rw [List.getElem?_set_ne (Ne.symm hne), hj]

end

end PeerRuns
