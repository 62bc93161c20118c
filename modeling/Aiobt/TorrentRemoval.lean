import Aiobt.PieceEngine
import Aiobt.InterleavedProcesses
import Aiobt.LiveDict

/-! # Removing a torrent

`Client.remove_torrent` of `client.py`, and the `run_peer` tasks of the session, which end at any
time and take their entries out of `session.peers`. -/
namespace TorrentRemoval

open InterleavedProcesses LiveDict
open PieceEngine (Address)

/-- Where `remove_torrent` waits. `session.task` is never set. -/
inductive RemovePoint where
  | starting
  | choking
  | disconnecting (it : Iter)
  | emitting
  | closing
  | returned
  | raised
  deriving DecidableEq, Repr

structure Session where
  point : RemovePoint
  deleteData : Bool
  loaded : Bool
  chokingRuns : Bool
  peers : Dict Address ℕ
  closed : Finset ℕ
  doneEvent : Bool
  removed : ℕ

/-- The loop over `session.peers` up to its next await, and what follows it. -/
def disconnectFrom (s : Session) (it : Iter) : Session :=
  match s.peers.next it with
  | .raises => { s with point := .raised }
  | .stops => { s with doneEvent := true, removed := s.removed + 1, point := .emitting }
  | .yields _ conn it' => { s with closed := insert conn s.closed, point := .disconnecting it' }

def start (s : Session) : Session :=
  if s.loaded then
    if s.chokingRuns then { s with loaded := false, point := .choking }
    else disconnectFrom { s with loaded := false } s.peers.iter
  else { s with point := .returned }

def proceed (s : Session) : Option Session :=
  match s.point with
  | .starting => some (start s)
  | .choking => some (disconnectFrom { s with chokingRuns := false } s.peers.iter)
  | .disconnecting it => some (disconnectFrom s it)
  | .emitting =>
    if s.deleteData then some { s with point := .closing } else some { s with point := .returned }
  | .closing => some { s with point := .returned }
  | .returned => none
  | .raised => none

/-- `wait_closed` of a lost connection, or closing the storage, raises. -/
def fail (s : Session) : Option Session :=
  match s.point with
  | .disconnecting _ => some { s with point := .raised }
  | .closing => some { s with point := .raised }
  | _ => none

inductive PeerPoint where
  | running
  | disconnecting
  | ended
  deriving DecidableEq, Repr

inductive Proc where
  | remover
  | peer (addr : Address) (conn : ℕ) (point : PeerPoint)
  deriving DecidableEq

inductive Action where
  | proceeds
  | fails
  | leaves
  /-- The `disconnect` of a task returns or raises, and `_run_peer_wrapper` cleans up. -/
  | cleansUp

def program : Program Session Proc Action
  | .proceeds, s, .remover => (proceed s).map fun s => (s, .remover)
  | .fails, s, .remover => (fail s).map fun s => (s, .remover)
  | .leaves, s, .peer addr conn .running =>
    some ({ s with closed := insert conn s.closed }, .peer addr conn .disconnecting)
  | .cleansUp, s, .peer addr conn .disconnecting =>
    some ({ s with peers := s.peers.pop addr }, .peer addr conn .ended)
  | _, _, _ => none

def initial (s : Session) : Config Session Proc :=
  ⟨s, .remover :: s.peers.entries.map fun e => .peer e.1 e.2 .running⟩

def Looping (s : Session) : Prop := ∃ it, s.point = .disconnecting it

/-- No task cleans up while the loop over the peers is suspended, and nothing that the call awaits
raises. -/
def Quiet (c : Config Session Proc) : Move Proc Action → Prop
  | .spawn _ => False
  | .act _ .cleansUp => ¬ Looping c.shared
  | .act _ .fails => False
  | .act _ _ => True

def Free (_ : Config Session Proc) : Move Proc Action → Prop
  | .spawn _ => False
  | .act _ _ => True

def Progress (s : Session) : Prop :=
  match s.point with
  | .starting => s.loaded = true ∧ s.removed = 0
  | .choking => s.removed = 0
  | .disconnecting it => s.removed = 0 ∧ s.peers.Undisturbed it ∧
      ∀ e ∈ s.peers.entries, e ∈ s.peers.ahead it.position ∨ e.2 ∈ s.closed
  | .raised => False
  | _ => s.doneEvent = true ∧ s.removed = 1 ∧ ∀ e ∈ s.peers.entries, e.2 ∈ s.closed

structure Invariant (peers : Dict Address ℕ) (c : Config Session Proc) : Prop where
  entries : ∀ e ∈ c.shared.peers.entries, e ∈ peers.entries
  gone : ∀ e ∈ peers.entries, e ∈ c.shared.peers.entries ∨ e.2 ∈ c.shared.closed
  tasks : ∀ addr conn point, .peer addr conn point ∈ c.procs → (addr, conn) ∈ peers.entries ∧
    (point ≠ .running → conn ∈ c.shared.closed)
  progress : Progress c.shared

@[simp] theorem disconnectFrom_peers (s : Session) (it : Iter) :
    (disconnectFrom s it).peers = s.peers := by
  unfold disconnectFrom
  split <;> rfl

theorem disconnectFrom_closed (s : Session) (it : Iter) :
    s.closed ⊆ (disconnectFrom s it).closed := by
  unfold disconnectFrom
  split
  · exact Finset.Subset.refl _
  · exact Finset.Subset.refl _
  · exact Finset.subset_insert _ _

theorem disconnectFrom_progress {s : Session} {it : Iter} (hremoved : s.removed = 0)
    (hit : s.peers.Undisturbed it)
    (hclosed : ∀ e ∈ s.peers.entries, e ∈ s.peers.ahead it.position ∨ e.2 ∈ s.closed) :
    Progress (disconnectFrom s it) := by
  unfold disconnectFrom
  rcases Dict.next_undisturbed hit with ⟨hnext, hnone⟩ | ⟨key, conn, it', hnext, hit', -, hahead⟩
  · rw [hnext]
    refine ⟨rfl, by rw [hremoved], ?_⟩
    intro e he
    rcases hclosed e he with hmem | hmem
    · rw [hnone] at hmem
      cases hmem
    · exact hmem
  · rw [hnext]
    refine ⟨hremoved, hit', ?_⟩
    intro e he
    rcases hclosed e he with hmem | hmem
    · rw [hahead] at hmem
      rcases List.mem_cons.mp hmem with rfl | hmem
      · exact Or.inr (Finset.mem_insert_self _ _)
      · exact Or.inl hmem
    · exact Or.inr (Finset.mem_insert_of_mem hmem)

theorem loop_progress {s : Session} (hremoved : s.removed = 0) :
    Progress (disconnectFrom s s.peers.iter) :=
  disconnectFrom_progress hremoved (Dict.undisturbed_iter s.peers) fun _ he => Or.inl he

theorem proceed_progress {s s' : Session} (h : Progress s) (hs : proceed s = some s') :
    Progress s' := by
  unfold proceed at hs
  unfold Progress at h
  cases hpoint : s.point with
  | starting =>
    simp only [hpoint] at hs h
    rw [← Option.some.inj hs, start, if_pos h.1]
    by_cases hruns : s.chokingRuns = true
    · rw [if_pos hruns]
      exact h.2
    · rw [if_neg hruns]
      exact loop_progress h.2
  | choking =>
    simp only [hpoint] at hs h
    rw [← Option.some.inj hs]
    exact loop_progress h
  | disconnecting it =>
    simp only [hpoint] at hs h
    rw [← Option.some.inj hs]
    exact disconnectFrom_progress h.1 h.2.1 h.2.2
  | emitting =>
    simp only [hpoint] at hs h
    by_cases hdelete : s.deleteData = true
    · rw [if_pos hdelete] at hs
      rw [← Option.some.inj hs]
      exact h
    · rw [if_neg hdelete] at hs
      rw [← Option.some.inj hs]
      exact h
  | closing =>
    simp only [hpoint] at hs h
    rw [← Option.some.inj hs]
    exact h
  | returned =>
    simp only [hpoint] at hs
    cases hs
  | raised =>
    simp only [hpoint] at hs
    cases hs

theorem proceed_frame {s s' : Session} (hs : proceed s = some s') :
    s'.peers = s.peers ∧ s.closed ⊆ s'.closed := by
  have hstart : (start s).peers = s.peers ∧ s.closed ⊆ (start s).closed := by
    unfold start
    split
    · split
      · exact ⟨rfl, Finset.Subset.refl _⟩
      · exact ⟨disconnectFrom_peers _ _, disconnectFrom_closed { s with loaded := false } _⟩
    · exact ⟨rfl, Finset.Subset.refl _⟩
  unfold proceed at hs
  split at hs
  · rw [← Option.some.inj hs]
    exact hstart
  · rw [← Option.some.inj hs]
    exact ⟨disconnectFrom_peers _ _, disconnectFrom_closed { s with chokingRuns := false } _⟩
  · rw [← Option.some.inj hs]
    exact ⟨disconnectFrom_peers _ _, disconnectFrom_closed _ _⟩
  · split at hs
    · rw [← Option.some.inj hs]
      exact ⟨rfl, Finset.Subset.refl _⟩
    · rw [← Option.some.inj hs]
      exact ⟨rfl, Finset.Subset.refl _⟩
  · rw [← Option.some.inj hs]
    exact ⟨rfl, Finset.Subset.refl _⟩
  · cases hs
  · cases hs

theorem progress_close {s : Session} (h : Progress s) (conn : ℕ) :
    Progress { s with closed := insert conn s.closed } := by
  unfold Progress at h ⊢
  cases hpoint : s.point with
  | disconnecting it =>
    simp only [hpoint] at h ⊢
    refine ⟨h.1, h.2.1, fun e he => ?_⟩
    rcases h.2.2 e he with hmem | hmem
    · exact Or.inl hmem
    · exact Or.inr (Finset.mem_insert_of_mem hmem)
  | starting => simpa only [hpoint] using h
  | choking => simpa only [hpoint] using h
  | raised => simp only [hpoint] at h
  | emitting | closing | returned =>
    simp only [hpoint] at h ⊢
    exact ⟨h.1, h.2.1, fun e he => Finset.mem_insert_of_mem (h.2.2 e he)⟩

theorem mem_of_mem_pop {peers : Dict Address ℕ} {addr : Address} {e : Address × ℕ}
    (h : e ∈ (peers.pop addr).entries) : e ∈ peers.entries := by
  rw [Dict.entries_pop] at h
  exact List.mem_of_mem_filter h

theorem progress_pop {s : Session} (h : Progress s) (hquiet : ¬ Looping s) (addr : Address) :
    Progress { s with peers := s.peers.pop addr } := by
  unfold Progress at h ⊢
  cases hpoint : s.point with
  | disconnecting it => exact absurd ⟨it, hpoint⟩ hquiet
  | starting => simpa only [hpoint] using h
  | choking => simpa only [hpoint] using h
  | raised => simp only [hpoint] at h
  | emitting | closing | returned =>
    simp only [hpoint] at h ⊢
    exact ⟨h.1, h.2.1, fun e he => h.2.2 e (mem_of_mem_pop he)⟩

variable {s : Session} {c : Config Session Proc}

theorem initial_invariant (hloaded : s.loaded = true) (hpoint : s.point = .starting)
    (hremoved : s.removed = 0) : Invariant s.peers (initial s) where
  entries := fun _ he => he
  gone := fun _ he => Or.inl he
  tasks := by
    intro addr conn point hmem
    rcases List.mem_cons.mp hmem with hmem | hmem
    · cases hmem
    · obtain ⟨e, he, heq⟩ := List.mem_map.mp hmem
      cases heq
      exact ⟨he, fun hne => absurd rfl hne⟩
  progress := by
    unfold Progress
    simp only [initial, hpoint]
    exact ⟨hloaded, hremoved⟩

/-- A connection whose task cleans up is closed, and it is the one that was registered. -/
theorem Invariant.gone_pop {peers : Dict Address ℕ} (h : Invariant peers c) {addr : Address}
    {conn : ℕ} (hmem : (addr, conn) ∈ peers.entries) (hclosed : conn ∈ c.shared.closed) :
    ∀ e ∈ peers.entries, e ∈ (c.shared.peers.pop addr).entries ∨ e.2 ∈ c.shared.closed := by
  intro e he
  rcases h.gone e he with hin | hin
  · by_cases haddr : e.1 = addr
    · have hsame : e = (addr, conn) := List.inj_on_of_nodup_map peers.unique he hmem haddr
      rw [hsame]
      exact Or.inr hclosed
    · rw [Dict.entries_pop]
      exact Or.inl (List.mem_filter.mpr ⟨hin, by simpa using haddr⟩)
  · exact Or.inr hin

theorem quiet_invariant (hloaded : s.loaded = true) (hpoint : s.point = .starting)
    (hremoved : s.removed = 0) (h : Reach program Quiet (initial s) c) : Invariant s.peers c := by
  refine h.invariant (I := Invariant s.peers) (initial_invariant hloaded hpoint hremoved) ?_ ?_
  · intro c p _ hok
    exact hok.elim
  · intro c i a p s₁ p' ih hok hp hs
    have hmem := List.mem_of_getElem? hp
    have hothers : ∀ {closed : Finset ℕ}, c.shared.closed ⊆ closed → ∀ addr conn point,
        .peer addr conn point ∈ c.procs → (addr, conn) ∈ s.peers.entries ∧
          (point ≠ .running → conn ∈ closed) := fun hsub addr conn point hin =>
      ⟨(ih.tasks addr conn point hin).1, fun hne => hsub ((ih.tasks addr conn point hin).2 hne)⟩
    unfold program at hs
    split at hs
    · obtain ⟨s₂, hproceed, heq⟩ := Option.map_eq_some_iff.mp hs
      cases heq
      obtain ⟨hpeers, hclosed⟩ := proceed_frame hproceed
      refine ⟨by rw [hpeers]; exact ih.entries, ?_, ?_, proceed_progress ih.progress hproceed⟩
      · intro e he
        rw [hpeers]
        exact (ih.gone e he).imp_right fun hin => hclosed hin
      · intro addr conn point hin
        rcases mem_set_cases hin with hin | hin
        · cases hin
        · exact hothers hclosed addr conn point hin
    · exact hok.elim
    · next addr conn =>
      cases hs
      have htask := ih.tasks addr conn .running hmem
      refine ⟨ih.entries, ?_, ?_, progress_close ih.progress conn⟩
      · intro e he
        exact (ih.gone e he).imp_right fun hin => Finset.mem_insert_of_mem hin
      · intro addr' conn' point hin
        rcases mem_set_cases hin with hin | hin
        · cases hin
          exact ⟨htask.1, fun _ => Finset.mem_insert_self _ _⟩
        · exact hothers (Finset.subset_insert _ _) addr' conn' point hin
    · next addr conn =>
      cases hs
      obtain ⟨hin, hclosed⟩ := ih.tasks addr conn .disconnecting hmem
      have hconn := hclosed (by decide)
      refine ⟨fun e he => ih.entries e (mem_of_mem_pop he), ih.gone_pop hin hconn, ?_,
        progress_pop ih.progress hok addr⟩
      intro addr' conn' point hin'
      rcases mem_set_cases hin' with hin' | hin'
      · cases hin'
        exact ⟨hin, fun _ => hconn⟩
      · exact hothers (Finset.Subset.refl _) addr' conn' point hin'
    · cases hs

def stepsLeft (s : Session) : ℕ :=
  match s.point with
  | .starting => s.peers.size + 5
  | .choking => s.peers.size + 4
  | .disconnecting it => it.left + 3
  | .emitting => 2
  | .closing => 1
  | .returned => 0
  | .raised => 0

theorem disconnectFrom_stepsLeft {it : Iter} (hit : s.peers.Undisturbed it) :
    stepsLeft (disconnectFrom s it) < it.left + 3 := by
  unfold disconnectFrom
  rcases Dict.next_undisturbed hit with ⟨hnext, -⟩ | ⟨key, conn, it', hnext, -, hleft, -⟩
  · rw [hnext]
    simp only [stepsLeft]
    omega
  · rw [hnext]
    simp only [stepsLeft]
    omega

theorem proceed_stepsLeft (h : Progress s) (hreturned : s.point ≠ .returned) :
    ∃ s', proceed s = some s' ∧ stepsLeft s' < stepsLeft s := by
  have hloop : ∀ s : Session, stepsLeft (disconnectFrom s s.peers.iter) < s.peers.size + 3 :=
    fun s => disconnectFrom_stepsLeft (Dict.undisturbed_iter s.peers)
  unfold Progress at h
  unfold proceed
  cases hpoint : s.point with
  | starting =>
    simp only [hpoint] at h
    refine ⟨_, rfl, ?_⟩
    rw [start, if_pos h.1]
    by_cases hruns : s.chokingRuns = true
    · rw [if_pos hruns]
      simp only [stepsLeft, hpoint]
      omega
    · rw [if_neg hruns]
      have := hloop { s with loaded := false }
      simp only [stepsLeft, hpoint] at this ⊢
      omega
  | choking =>
    refine ⟨_, rfl, ?_⟩
    have := hloop { s with chokingRuns := false }
    simp only [stepsLeft, hpoint] at this ⊢
    omega
  | disconnecting it =>
    simp only [hpoint] at h
    refine ⟨_, rfl, ?_⟩
    have := disconnectFrom_stepsLeft h.2.1
    simp only [stepsLeft, hpoint] at this ⊢
    omega
  | emitting =>
    by_cases hdelete : s.deleteData = true
    · exact ⟨_, if_pos hdelete, by simp [stepsLeft, hpoint]⟩
    · exact ⟨_, if_neg hdelete, by simp [stepsLeft, hpoint]⟩
  | closing => exact ⟨_, rfl, by simp [stepsLeft, hpoint]⟩
  | returned => exact absurd hpoint hreturned
  | raised => simp only [hpoint] at h

/-- No step of a quiet run adds to what the call has still to do. -/
theorem quiet_stepsLeft {peers : Dict Address ℕ} {c' : Config Session Proc} {m : Move Proc Action}
    (h : Invariant peers c) (hok : Quiet c m) (happ : apply program c m = some c') :
    stepsLeft c'.shared ≤ stepsLeft c.shared := by
  cases m with
  | spawn p => exact hok.elim
  | act i a =>
    obtain ⟨p, s₁, p', -, hs, rfl⟩ := apply_act happ
    unfold program at hs
    split at hs
    · obtain ⟨s₂, hproceed, heq⟩ := Option.map_eq_some_iff.mp hs
      cases heq
      have hreturned : c.shared.point ≠ .returned := by
        intro hpoint
        rw [proceed, hpoint] at hproceed
        cases hproceed
      obtain ⟨s₃, hproceed', hless⟩ := proceed_stepsLeft h.progress hreturned
      cases hproceed.symm.trans hproceed'
      exact hless.le
    · exact hok.elim
    · cases hs
      exact le_rfl
    · next addr conn =>
      cases hs
      have hsize : (c.shared.peers.pop addr).size ≤ c.shared.peers.size := by
        rw [Dict.size, Dict.size, Dict.entries_pop]
        exact List.length_filter_le _ _
      unfold stepsLeft
      cases hpoint : c.shared.point with
      | starting => simpa using hsize
      | choking => simpa using hsize
      | _ => exact le_rfl
    · cases hs

def addrOf : Proc → Option Address
  | .remover => none
  | .peer addr _ _ => some addr

/-- Each task has an address of its own, and its entry until it cleans up. -/
structure Owned (c : Config Session Proc) : Prop where
  addresses : ∀ (i j : ℕ) p q addr, c.procs[i]? = some p → c.procs[j]? = some q →
    addrOf p = some addr → addrOf q = some addr → i = j
  live : ∀ (i : ℕ) addr conn point, c.procs[i]? = some (.peer addr conn point) → point ≠ .ended →
    (addr, conn) ∈ c.shared.peers.entries

theorem initial_owned (s : Session) : Owned (initial s) where
  addresses := by
    intro i j p q addr hp hq hpa hqa
    cases i with
    | zero =>
      cases hp
      cases hpa
    | succ i =>
      cases j with
      | zero =>
        cases hq
        cases hqa
      | succ j =>
        simp only [initial, List.getElem?_cons_succ, List.getElem?_map] at hp hq
        obtain ⟨e, he, rfl⟩ := Option.map_eq_some_iff.mp hp
        obtain ⟨e', he', rfl⟩ := Option.map_eq_some_iff.mp hq
        have hkeys : (s.peers.keys)[i]? = (s.peers.keys)[j]? := by
          rw [Dict.keys, List.getElem?_map, List.getElem?_map, he, he']
          exact hpa.trans hqa.symm
        have hlt : i < s.peers.keys.length := by
          rw [Dict.keys, List.length_map]
          exact (List.getElem?_eq_some_iff.mp he).1
        rw [(List.getElem?_inj hlt s.peers.unique).mp hkeys]
  live := by
    intro i addr conn point hp _
    cases i with
    | zero => cases hp
    | succ i =>
      simp only [initial, List.getElem?_cons_succ, List.getElem?_map] at hp
      obtain ⟨e, he, heq⟩ := Option.map_eq_some_iff.mp hp
      cases heq
      exact List.mem_of_getElem? he

theorem program_addrOf {a : Action} {s s' : Session} {p p' : Proc}
    (h : program a s p = some (s', p')) : addrOf p' = addrOf p := by
  unfold program at h
  split at h
  · obtain ⟨_, -, heq⟩ := Option.map_eq_some_iff.mp h
    cases heq
    rfl
  · obtain ⟨_, -, heq⟩ := Option.map_eq_some_iff.mp h
    cases heq
    rfl
  · cases h
    rfl
  · cases h
    rfl
  · cases h

theorem fail_peers {s s' : Session} (h : fail s = some s') :
    s'.peers = s.peers ∧ s'.point = .raised := by
  unfold fail at h
  split at h
  · cases h
    exact ⟨rfl, rfl⟩
  · cases h
    exact ⟨rfl, rfl⟩
  · cases h

theorem free_owned (h : Reach program Free (initial s) c) : Owned c := by
  refine h.invariant (I := Owned) (initial_owned s) ?_ ?_
  · intro c p _ hok
    exact hok.elim
  · intro c i a p s₁ p' ih _hok hp hs
    constructor
    · intro j k q r addr hq hr hqa hra
      have hback : ∀ {j : ℕ} {q : Proc}, (c.procs.set i p')[j]? = some q → addrOf q = some addr →
          ∃ q', c.procs[j]? = some q' ∧ addrOf q' = some addr := by
        intro j q hq hqa
        rcases getElem?_set_cases hq with ⟨rfl, rfl⟩ | ⟨-, hq⟩
        · exact ⟨p, hp, (program_addrOf hs).symm.trans hqa⟩
        · exact ⟨q, hq, hqa⟩
      obtain ⟨q', hq', hqa'⟩ := hback hq hqa
      obtain ⟨r', hr', hra'⟩ := hback hr hra
      exact ih.addresses j k q' r' addr hq' hr' hqa' hra'
    · intro j addr conn point hj hpoint
      unfold program at hs
      split at hs
      · obtain ⟨s₂, hproceed, heq⟩ := Option.map_eq_some_iff.mp hs
        cases heq
        rcases getElem?_set_cases hj with ⟨-, heq⟩ | ⟨-, hj⟩
        · cases heq
        · rw [(proceed_frame hproceed).1]
          exact ih.live j addr conn point hj hpoint
      · obtain ⟨s₂, hfail, heq⟩ := Option.map_eq_some_iff.mp hs
        cases heq
        rcases getElem?_set_cases hj with ⟨-, heq⟩ | ⟨-, hj⟩
        · cases heq
        · rw [(fail_peers hfail).1]
          exact ih.live j addr conn point hj hpoint
      · cases hs
        rcases getElem?_set_cases hj with ⟨rfl, heq⟩ | ⟨-, hj⟩
        · cases heq
          exact ih.live j addr conn .running hp (by decide)
        · exact ih.live j addr conn point hj hpoint
      · next addr' conn' =>
        cases hs
        rcases getElem?_set_cases hj with ⟨rfl, heq⟩ | ⟨hne, hother⟩
        · cases heq
          exact absurd rfl hpoint
        · have haddr : addr ≠ addr' := by
            intro hsame
            exact hne (ih.addresses j i _ _ addr' hother hp (congrArg some hsame) rfl)
          rw [Dict.entries_pop]
          exact List.mem_filter.mpr ⟨ih.live j addr conn point hother hpoint, by simpa using haddr⟩
      · cases hs

/-- The loop will find fewer peers than it knows of, or an exception has left the call. -/
def Spoiled (s : Session) : Prop :=
  (∃ it, s.point = .disconnecting it ∧ s.peers.size < it.used) ∨ s.point = .raised

theorem spoiled_run {c' : Config Session Proc} (h : Reach program Free c c')
    (hspoiled : Spoiled c.shared) : Spoiled c'.shared := by
  refine h.invariant (I := fun c => Spoiled c.shared) hspoiled ?_ ?_
  · intro c p _ hok
    exact hok.elim
  · intro c i a p s₁ p' ih _hok _hp hs
    unfold program at hs
    split at hs
    · obtain ⟨s₂, hproceed, heq⟩ := Option.map_eq_some_iff.mp hs
      cases heq
      rcases ih with ⟨it, hpoint, hsize⟩ | hpoint
      · rw [proceed, hpoint] at hproceed
        cases hproceed
        rw [disconnectFrom, Dict.next_of_size_ne hsize.ne]
        exact Or.inr rfl
      · rw [proceed, hpoint] at hproceed
        cases hproceed
    · obtain ⟨s₂, hfail, heq⟩ := Option.map_eq_some_iff.mp hs
      cases heq
      exact Or.inr (fail_peers hfail).2
    · cases hs
      exact ih
    · next addr conn =>
      cases hs
      rcases ih with ⟨it, hpoint, hsize⟩ | hpoint
      · refine Or.inl ⟨it, hpoint, lt_of_le_of_lt ?_ hsize⟩
        rw [Dict.size, Dict.size, Dict.entries_pop]
        exact List.length_filter_le _ _
      · exact Or.inr hpoint
    · cases hs

theorem spoiled_of_not_quiet {peers : Dict Address ℕ} {c' : Config Session Proc}
    {m : Move Proc Action} (h : Invariant peers c) (howned : Owned c) (hfree : Free c m)
    (hloud : ¬ Quiet c m) (happ : apply program c m = some c') : Spoiled c'.shared := by
  cases m with
  | spawn p => exact hfree.elim
  | act i a =>
    obtain ⟨p, s₁, p', hp, hs, rfl⟩ := apply_act happ
    cases a with
    | proceeds => exact absurd trivial hloud
    | leaves => exact absurd trivial hloud
    | fails =>
      unfold program at hs
      split at hs
      · next heq => cases heq
      · obtain ⟨s₂, hfail, heq⟩ := Option.map_eq_some_iff.mp hs
        cases heq
        exact Or.inr (fail_peers hfail).2
      · next heq => cases heq
      · next heq => cases heq
      · cases hs
    | cleansUp =>
      obtain ⟨it, hpoint⟩ : Looping c.shared := not_not.mp hloud
      unfold program at hs
      split at hs
      · next heq => cases heq
      · next heq => cases heq
      · next heq => cases heq
      · next addr conn _ =>
        cases hs
        have hprogress := h.progress
        unfold Progress at hprogress
        simp only [hpoint] at hprogress
        have hkey : addr ∈ c.shared.peers.keys :=
          List.mem_map_of_mem (howned.live i addr conn .disconnecting hp (by decide))
        refine Or.inl ⟨it, hpoint, ?_⟩
        rw [← hprogress.2.1.1]
        exact Dict.size_pop_lt hkey
      · cases hs

theorem quiet_free (h : Reach program Quiet (initial s) c) : Reach program Free (initial s) c := by
  refine h.mono ?_
  intro c m hok
  cases m with
  | spawn p => exact hok
  | act i a => trivial

/-- Where no task cleans up during the loop and nothing that is awaited raises, the call makes its
way to the end without an exception, and has done everything there. After the first step that is
different it does not return. -/
theorem remove_finishes (hloaded : s.loaded = true) (hpoint : s.point = .starting)
    (hremoved : s.removed = 0) :
    (∀ c, Reach program Quiet (initial s) c → c.shared.point ≠ .raised ∧
      (c.shared.point = .returned → c.shared.doneEvent = true ∧ c.shared.removed = 1 ∧
        ∀ e ∈ s.peers.entries, e.2 ∈ c.shared.closed) ∧
      (c.shared.point ≠ .returned →
        ∃ s', proceed c.shared = some s' ∧ stepsLeft s' < stepsLeft c.shared) ∧
      ∀ m c', Quiet c m → apply program c m = some c' →
        stepsLeft c'.shared ≤ stepsLeft c.shared) ∧
    ∀ c m c' c'', Reach program Quiet (initial s) c → Free c m → ¬ Quiet c m →
      apply program c m = some c' → Reach program Free c' c'' → c''.shared.point ≠ .returned := by
  constructor
  · intro c h
    have hinv := quiet_invariant hloaded hpoint hremoved h
    have hprogress := hinv.progress
    refine ⟨?_, ?_, fun hreturned => proceed_stepsLeft hprogress hreturned,
      fun m c' hok happ => quiet_stepsLeft hinv hok happ⟩
    · intro hraised
      unfold Progress at hprogress
      simp only [hraised] at hprogress
    · intro hreturned
      unfold Progress at hprogress
      simp only [hreturned] at hprogress
      refine ⟨hprogress.1, hprogress.2.1, fun e he => ?_⟩
      rcases hinv.gone e he with hin | hin
      · exact hprogress.2.2 e hin
      · exact hin
  · intro c m c' c'' h hfree hloud happ hrest hreturned
    have hinv := quiet_invariant hloaded hpoint hremoved h
    have hspoiled := spoiled_of_not_quiet hinv (free_owned (quiet_free h)) hfree hloud happ
    rcases spoiled_run hrest hspoiled with ⟨it, hloop, -⟩ | hraised
    · cases hloop.symm.trans hreturned
    · cases hraised.symm.trans hreturned

def onePeer : Session where
  point := .starting
  deleteData := false
  loaded := true
  chokingRuns := false
  peers := ⟨[some (⟨[97], 1⟩, 0)], by decide⟩
  closed := ∅
  doneEvent := false
  removed := 0

/-- The task of the peer cleans up only after the loop. -/
theorem remove_finishes_late_task : ∃ c,
    run program (initial onePeer) [.act 0 .proceeds, .act 1 .leaves, .act 0 .proceeds,
      .act 1 .cleansUp, .act 0 .proceeds] = some c ∧ c.shared.point = .returned ∧
      c.shared.doneEvent = true ∧ c.shared.removed = 1 ∧ 0 ∈ c.shared.closed := by
  obtain ⟨c, hrun, hreturned⟩ : ∃ c, run program (initial onePeer) [.act 0 .proceeds, .act 1 .leaves,
      .act 0 .proceeds, .act 1 .cleansUp, .act 0 .proceeds] = some c ∧ c.shared.point = .returned :=
    ⟨_, rfl, rfl⟩
  have hquiet : Allowed program Quiet (initial onePeer) [.act 0 .proceeds, .act 1 .leaves,
      .act 0 .proceeds, .act 1 .cleansUp, .act 0 .proceeds] := by
    refine ⟨trivial, fun c₁ h₁ => ⟨trivial, fun c₂ h₂ => ⟨trivial, fun c₃ h₃ => ⟨?_, fun _ _ =>
      ⟨trivial, fun _ _ => trivial⟩⟩⟩⟩⟩
    cases h₁
    cases h₂
    cases h₃
    rintro ⟨it, hit⟩
    cases hit
  obtain ⟨-, hdone, -⟩ := (remove_finishes (s := onePeer) rfl rfl rfl).1 c (reach_run hquiet hrun)
  obtain ⟨hevent, hremoved, hclosed⟩ := hdone hreturned
  exact ⟨c, hrun, hreturned, hevent, hremoved, hclosed (⟨[97], 1⟩, 0) List.mem_cons_self⟩

/-- The task of the peer is woken by the same loss of the connection, and cleans up first. -/
theorem remove_raises_early_task : ∃ c,
    run program (initial onePeer) [.act 0 .proceeds, .act 1 .leaves, .act 1 .cleansUp,
      .act 0 .proceeds] = some c ∧ c.shared.point = .raised ∧ c.shared.doneEvent = false ∧
      c.shared.removed = 0 := ⟨_, rfl, rfl, rfl, rfl⟩

end TorrentRemoval
