import Aiobt.PieceEngine
import Aiobt.InterleavedProcesses

/-! # Registered peers

`add_peer`, `_handle_incoming` and `_run_peer_wrapper` of `client.py`, as far as they use the three
maps of a session that are keyed by address. -/
namespace PeerRegistry

open InterleavedProcesses
open PieceEngine (Address)

/-- `session.peers`, the rates of the choking manager and `_active_peer_stats`, by the number of the
connection they belong to. -/
structure Registry where
  peers : Address → Option ℕ
  rates : Address → Option ℕ
  stats : Address → Option ℕ

inductive Point where
  | starting
  | connecting
  | emitting
  | created
  | running
  | ended
  deriving DecidableEq, Repr

/-- An `add_peer` or `_handle_incoming` call, and from `created` on the task that it has created. -/
structure Call where
  incoming : Bool
  addr : Address
  conn : ℕ
  point : Point
  deriving DecidableEq, Repr

def Call.goto (p : Call) (point : Point) : Call := { p with point := point }

/-- `_run_peer_wrapper` after `run_peer` has been left. -/
def cleanup (r : Registry) (addr : Address) : Registry where
  peers := Function.update r.peers addr none
  rates := Function.update r.rates addr none
  stats := Function.update r.stats addr none

inductive Action where
  /-- The call or the task runs on to its next await. -/
  | proceeds
  | fails

/-- Only `add_peer` looks whether the address is known, before it connects. -/
def program : Program Registry Call Action
  | .proceeds, r, p =>
    match p.point with
    | .starting =>
      if p.incoming = false ∧ (r.peers p.addr).isSome then some (r, p.goto .ended)
      else some (r, p.goto .connecting)
    | .connecting =>
      some ({ r with peers := Function.update r.peers p.addr (some p.conn) }, p.goto .emitting)
    | .emitting =>
      some ({ r with rates := Function.update r.rates p.addr (some p.conn) }, p.goto .created)
    | .created =>
      some ({ r with stats := Function.update r.stats p.addr (some p.conn) }, p.goto .running)
    | .running => some (cleanup r p.addr, p.goto .ended)
    | .ended => none
  | .fails, r, p =>
    match p.point with
    | .running => some (cleanup r p.addr, p.goto .ended)
    | .ended => none
    | _ => some (r, p.goto .ended)

def Call.Live (p : Call) : Prop := p.point = .created ∨ p.point = .running

def Call.Holds (p : Call) : Prop := p.point = .emitting ∨ p.Live

instance (p : Call) : Decidable p.Live := inferInstanceAs (Decidable (_ ∨ _))
instance (p : Call) : Decidable p.Holds := inferInstanceAs (Decidable (_ ∨ _))

def Fresh (c : Config Registry Call) (p : Call) : Prop :=
  p.point = .starting ∧ ∀ q ∈ c.procs, q.conn ≠ p.conn

def Orderly (c : Config Registry Call) : Move Call Action → Prop
  | .spawn p => Fresh c p
  | .act i .proceeds => ∀ p, c.procs[i]? = some p → p.point = .connecting →
      ∀ q ∈ c.procs, q.Holds → q.addr ≠ p.addr
  | .act _ .fails => True

instance (c : Config Registry Call) (p : Call) : Decidable (Fresh c p) :=
  inferInstanceAs (Decidable (_ ∧ _))

instance (c : Config Registry Call) : (m : Move Call Action) → Decidable (Orderly c m)
  | .spawn p => inferInstanceAs (Decidable (Fresh c p))
  | .act i .proceeds => decidable_of_iff (∀ p ∈ c.procs[i]?, p.point = .connecting →
      ∀ q ∈ c.procs, q.Holds → q.addr ≠ p.addr) Iff.rfl
  | .act _ .fails => .isTrue trivial

def initial : Config Registry Call := ⟨⟨fun _ => none, fun _ => none, fun _ => none⟩, []⟩

/-- One live task for an address, which the entries of the address belong to. -/
structure Exclusive (c : Config Registry Call) : Prop where
  single : ∀ (i j : ℕ) p q, c.procs[i]? = some p → c.procs[j]? = some q → p.Live → q.Live →
    p.addr = q.addr → i = j
  own : ∀ p ∈ c.procs, p.Live →
    c.shared.peers p.addr = some p.conn ∧ c.shared.rates p.addr = some p.conn

def RemovesOwn (c : Config Registry Call) (p : Call) (r : Registry) : Prop :=
  ∀ addr, (r.peers addr ≠ c.shared.peers addr →
      addr = p.addr ∧ c.shared.peers addr = some p.conn) ∧
    (r.rates addr ≠ c.shared.rates addr → addr = p.addr ∧ c.shared.rates addr = some p.conn) ∧
    (r.stats addr ≠ c.shared.stats addr → addr = p.addr ∧ c.shared.stats addr = some p.conn)

@[simp] theorem goto_addr (p : Call) (point : Point) : (p.goto point).addr = p.addr := rfl
@[simp] theorem goto_conn (p : Call) (point : Point) : (p.goto point).conn = p.conn := rfl
@[simp] theorem goto_point (p : Call) (point : Point) : (p.goto point).point = point := rfl

inductive Step (r : Registry) (p : Call) : Action → Registry → Call → Prop where
  | connects {a} : p.point = .starting → Step r p a r (p.goto .connecting)
  | givesUp {a} : p.point ≠ .running → Step r p a r (p.goto .ended)
  | registers : p.point = .connecting → Step r p .proceeds
      { r with peers := Function.update r.peers p.addr (some p.conn) } (p.goto .emitting)
  | creates {a} : p.point = .emitting → Step r p a
      { r with rates := Function.update r.rates p.addr (some p.conn) } (p.goto .created)
  | runs {a} : p.point = .created → Step r p a
      { r with stats := Function.update r.stats p.addr (some p.conn) } (p.goto .running)
  | cleansUp {a} : p.point = .running → Step r p a (cleanup r p.addr) (p.goto .ended)

theorem program_step {a : Action} {r r' : Registry} {p p' : Call}
    (h : program a r p = some (r', p')) : Step r p a r' p' := by
  cases a with
  | proceeds =>
    unfold program at h
    cases hpoint : p.point with
    | starting =>
      simp only [hpoint] at h
      split at h
      · cases h
        exact .givesUp (by rw [hpoint]; decide)
      · cases h
        exact .connects hpoint
    | connecting =>
      simp only [hpoint] at h
      cases h
      exact .registers hpoint
    | emitting =>
      simp only [hpoint] at h
      cases h
      exact .creates hpoint
    | created =>
      simp only [hpoint] at h
      cases h
      exact .runs hpoint
    | running =>
      simp only [hpoint] at h
      cases h
      exact .cleansUp hpoint
    | ended =>
      simp only [hpoint] at h
      cases h
  | fails =>
    unfold program at h
    cases hpoint : p.point with
    | running =>
      simp only [hpoint] at h
      cases h
      exact .cleansUp hpoint
    | ended =>
      simp only [hpoint] at h
      cases h
    | starting | connecting | emitting | created =>
      simp only [hpoint] at h
      cases h
      exact .givesUp (by rw [hpoint]; decide)

theorem not_holds_ended (p : Call) : ¬ (p.goto .ended).Holds := by
  simp [Call.Holds, Call.Live]

theorem not_holds_connecting (p : Call) : ¬ (p.goto .connecting).Holds := by
  simp [Call.Holds, Call.Live]

theorem Call.Live.holds {p : Call} (h : p.Live) : p.Holds := Or.inr h

structure Invariant (c : Config Registry Call) : Prop where
  single : ∀ (i j : ℕ) p q, c.procs[i]? = some p → c.procs[j]? = some q → p.Holds → q.Holds →
    p.addr = q.addr → i = j
  peers : ∀ (i : ℕ) p, c.procs[i]? = some p → p.Holds → c.shared.peers p.addr = some p.conn
  rates : ∀ (i : ℕ) p, c.procs[i]? = some p → p.Live → c.shared.rates p.addr = some p.conn
  stats : ∀ (i : ℕ) p, c.procs[i]? = some p → p.point = .running →
    c.shared.stats p.addr = some p.conn

variable {c : Config Registry Call}

/-- The connection that takes a step is the only one that holds its address afterwards. -/
theorem Invariant.alone (h : Invariant c) {i : ℕ} {a : Action} {p p' : Call} {r : Registry}
    (hok : Orderly c (.act i a)) (hp : c.procs[i]? = some p) (hstep : Step c.shared p a r p')
    (hholds : p.Holds ∨ p'.Holds) :
    ∀ (j : ℕ) q, j ≠ i → c.procs[j]? = some q → q.Holds → q.addr ≠ p.addr := by
  have hbefore : p.Holds → ∀ (j : ℕ) q, j ≠ i → c.procs[j]? = some q → q.Holds →
      q.addr ≠ p.addr := by
    intro hpholds j q hne hq hqholds haddr
    exact hne (h.single j i q p hq hp hqholds hpholds haddr)
  rcases hholds with hpholds | hp'holds
  · exact hbefore hpholds
  · cases hstep with
    | connects _ => exact absurd hp'holds (not_holds_connecting p)
    | givesUp _ => exact absurd hp'holds (not_holds_ended p)
    | registers hpoint =>
      intro j q _ hq hqholds
      exact hok p hp hpoint q (List.mem_of_getElem? hq) hqholds
    | creates hpoint => exact hbefore (Or.inl hpoint)
    | runs hpoint => exact hbefore (Or.inr (Or.inl hpoint))
    | cleansUp hpoint => exact hbefore (Or.inr (Or.inr hpoint))

theorem Invariant.act (h : Invariant c) {i : ℕ} {a : Action} {p p' : Call} {r : Registry}
    (hok : Orderly c (.act i a)) (hp : c.procs[i]? = some p) (hstep : Step c.shared p a r p') :
    Invariant ⟨r, c.procs.set i p'⟩ := by
  have halone := h.alone hok hp hstep
  have haddr : p'.addr = p.addr := by
    cases hstep <;> rfl
  constructor
  · intro j k q s hq hs hqholds hsholds hsame
    rcases getElem?_set_cases hq with ⟨rfl, rfl⟩ | ⟨hj, hother⟩
    · rcases getElem?_set_cases hs with ⟨rfl, -⟩ | ⟨hk, hother⟩
      · rfl
      · exact absurd (hsame.symm.trans haddr) (halone (Or.inr hqholds) k s hk hother hsholds)
    · rcases getElem?_set_cases hs with ⟨rfl, rfl⟩ | ⟨-, hother'⟩
      · exact absurd (hsame.trans haddr) (halone (Or.inr hsholds) j q hj hother hqholds)
      · exact h.single j k q s hother hother' hqholds hsholds hsame
  · intro j q hq hqholds
    rcases getElem?_set_cases hq with ⟨rfl, rfl⟩ | ⟨hj, hother⟩
    · cases hstep with
      | connects _ => exact absurd hqholds (not_holds_connecting p)
      | givesUp _ => exact absurd hqholds (not_holds_ended p)
      | registers _ => exact Function.update_self ..
      | creates hpoint => exact h.peers j p hp (Or.inl hpoint)
      | runs hpoint => exact h.peers j p hp (Or.inr (Or.inl hpoint))
      | cleansUp _ => exact absurd hqholds (not_holds_ended p)
    · have hold := h.peers j q hother hqholds
      cases hstep with
      | connects _ => exact hold
      | givesUp _ => exact hold
      | registers _ =>
        have hne := halone (Or.inr (Or.inl rfl)) j q hj hother hqholds
        exact (Function.update_of_ne hne ..).trans hold
      | creates _ => exact hold
      | runs _ => exact hold
      | cleansUp hpoint =>
        have hne := halone (Or.inl (Or.inr (Or.inr hpoint))) j q hj hother hqholds
        exact (Function.update_of_ne hne ..).trans hold
  · intro j q hq hlive
    rcases getElem?_set_cases hq with ⟨rfl, rfl⟩ | ⟨hj, hother⟩
    · cases hstep with
      | connects _ => exact absurd hlive.holds (not_holds_connecting p)
      | givesUp _ => exact absurd hlive.holds (not_holds_ended p)
      | registers _ => rcases hlive with hlive | hlive <;> cases hlive
      | creates _ => exact Function.update_self ..
      | runs hpoint => exact h.rates j p hp (Or.inl hpoint)
      | cleansUp _ => exact absurd hlive.holds (not_holds_ended p)
    · have hold := h.rates j q hother hlive
      cases hstep with
      | connects _ => exact hold
      | givesUp _ => exact hold
      | registers _ => exact hold
      | creates hpoint =>
        have hne := halone (Or.inl (Or.inl hpoint)) j q hj hother hlive.holds
        exact (Function.update_of_ne hne ..).trans hold
      | runs _ => exact hold
      | cleansUp hpoint =>
        have hne := halone (Or.inl (Or.inr (Or.inr hpoint))) j q hj hother hlive.holds
        exact (Function.update_of_ne hne ..).trans hold
  · intro j q hq hrunning
    rcases getElem?_set_cases hq with ⟨rfl, rfl⟩ | ⟨hj, hother⟩
    · cases hstep with
      | runs _ => exact Function.update_self ..
      | connects _ => cases hrunning
      | givesUp _ => cases hrunning
      | registers _ => cases hrunning
      | creates _ => cases hrunning
      | cleansUp _ => cases hrunning
    · have hold := h.stats j q hother hrunning
      have hqholds : q.Holds := Or.inr (Or.inr hrunning)
      cases hstep with
      | connects _ => exact hold
      | givesUp _ => exact hold
      | registers _ => exact hold
      | creates _ => exact hold
      | runs hpoint =>
        have hne := halone (Or.inl (Or.inr (Or.inl hpoint))) j q hj hother hqholds
        exact (Function.update_of_ne hne ..).trans hold
      | cleansUp hpoint =>
        have hne := halone (Or.inl (Or.inr (Or.inr hpoint))) j q hj hother hqholds
        exact (Function.update_of_ne hne ..).trans hold

theorem getElem?_spawn_cases {l : List Call} {p q : Call} {i : ℕ} (hp : ¬ p.Holds)
    (hq : (l ++ [p])[i]? = some q) (hqholds : q.Holds) : l[i]? = some q := by
  rcases getElem?_append_cases hq with ⟨-, rfl⟩ | hq
  · exact absurd hqholds hp
  · exact hq

theorem orderly_invariant (h : Reach program Orderly initial c) : Invariant c := by
  refine h.invariant (I := Invariant) ?_ ?_ ?_
  · constructor
    · intro i j p q hp
      cases hp
    · intro i p hp
      cases hp
    · intro i p hp
      cases hp
    · intro i p hp
      cases hp
  · intro c p ih hok
    have hnot : ¬ p.Holds := by
      simp [Call.Holds, Call.Live, hok.1]
    constructor
    · intro i j q r hq hr hqholds hrholds
      exact ih.single i j q r (getElem?_spawn_cases hnot hq hqholds)
        (getElem?_spawn_cases hnot hr hrholds) hqholds hrholds
    · intro i q hq hqholds
      exact ih.peers i q (getElem?_spawn_cases hnot hq hqholds) hqholds
    · intro i q hq hlive
      exact ih.rates i q (getElem?_spawn_cases hnot hq hlive.holds) hlive
    · intro i q hq hrunning
      exact ih.stats i q (getElem?_spawn_cases hnot hq (Or.inr (Or.inr hrunning))) hrunning
  · intro c i a p r p' ih hok hp hs
    exact ih.act hok hp (program_step hs)

theorem Invariant.exclusive (h : Invariant c) : Exclusive c where
  single := fun i j p q hp hq hplive hqlive => h.single i j p q hp hq hplive.holds hqlive.holds
  own := by
    intro p hp hlive
    obtain ⟨i, hi⟩ := List.getElem?_of_mem hp
    exact ⟨h.peers i p hi hlive.holds, h.rates i p hi hlive⟩

theorem Invariant.removesOwn (h : Invariant c) {i : ℕ} {a : Action} {p p' : Call} {r : Registry}
    (hp : c.procs[i]? = some p) (hrunning : p.point = .running)
    (hstep : program a c.shared p = some (r, p')) : RemovesOwn c p r := by
  have hr : r = cleanup c.shared p.addr := by
    cases program_step hstep with
    | cleansUp _ => rfl
    | connects hpoint => cases hpoint.symm.trans hrunning
    | givesUp hpoint => exact absurd hrunning hpoint
    | registers hpoint => cases hpoint.symm.trans hrunning
    | creates hpoint => cases hpoint.symm.trans hrunning
    | runs hpoint => cases hpoint.symm.trans hrunning
  have hlive : p.Live := Or.inr hrunning
  have hkey : ∀ {m : Address → Option ℕ}, m p.addr = some p.conn → ∀ addr,
      Function.update m p.addr none addr ≠ m addr → addr = p.addr ∧ m addr = some p.conn := by
    intro m hm addr hne
    by_cases haddr : addr = p.addr
    · exact ⟨haddr, by rw [haddr]; exact hm⟩
    · exact absurd (Function.update_of_ne haddr ..) hne
  subst hr
  intro addr
  exact ⟨hkey (h.peers i p hp hlive.holds) addr, hkey (h.rates i p hp hlive) addr,
    hkey (h.stats i p hp hrunning) addr⟩

theorem orderly_conn (h : Reach program Orderly initial c) (i j : ℕ) (p q : Call)
    (hp : c.procs[i]? = some p) (hq : c.procs[j]? = some q) (hconn : p.conn = q.conn) : i = j := by
  refine h.invariant (I := fun c => ∀ (i j : ℕ) p q, c.procs[i]? = some p → c.procs[j]? = some q →
    p.conn = q.conn → i = j) ?_ ?_ ?_ i j p q hp hq hconn
  · intro i j p q hp
    cases hp
  · intro c p ih hok i j q r hq hr hconn
    have hold : ∀ {i : ℕ} {q : Call}, (c.procs ++ [p])[i]? = some q →
        c.procs[i]? = some q ∨ (i = c.procs.length ∧ q = p) := by
      intro i q hq
      by_cases hi : i < c.procs.length
      · rw [List.getElem?_append_left hi] at hq
        exact Or.inl hq
      · rw [List.getElem?_append_right (by omega)] at hq
        obtain ⟨hlt, heq⟩ := List.getElem?_eq_some_iff.mp hq
        have hzero : i - c.procs.length = 0 := by simpa using hlt
        simp only [hzero, List.getElem_cons_zero] at heq
        exact Or.inr ⟨by omega, heq.symm⟩
    rcases hold hq with hq' | ⟨hi, rfl⟩
    · rcases hold hr with hr' | ⟨hj, rfl⟩
      · exact ih i j q r hq' hr' hconn
      · exact absurd hconn (hok.2 q (List.mem_of_getElem? hq'))
    · rcases hold hr with hr' | ⟨hj, -⟩
      · exact absurd hconn.symm (hok.2 r (List.mem_of_getElem? hr'))
      · exact hi.trans hj.symm
  · intro c i a p r p' ih _ hp hs j k q s hq hs' hconn
    have hsame : p'.conn = p.conn := by
      cases program_step hs <;> rfl
    rcases getElem?_set_cases hq with ⟨rfl, rfl⟩ | ⟨-, hq'⟩
    · rcases getElem?_set_cases hs' with ⟨rfl, -⟩ | ⟨-, hs''⟩
      · rfl
      · exact ih j k p s hp hs'' (hsame.symm.trans hconn)
    · rcases getElem?_set_cases hs' with ⟨rfl, rfl⟩ | ⟨-, hs''⟩
      · exact ih j k q p hq' hp (hconn.trans hsame)
      · exact ih j k q s hq' hs'' hconn

/-- Where an address is registered while it is held, the holder loses its entry. -/
theorem not_exclusive_of_held {c' : Config Registry Call} {i : ℕ}
    (h : Reach program Orderly initial c) (hloud : ¬ Orderly c (.act i .proceeds))
    (happ : apply program c (.act i .proceeds) = some c') :
    ¬ Exclusive c' ∨ ∃ j c'', apply program c' (.act j .proceeds) = some c'' ∧ ¬ Exclusive c'' := by
  obtain ⟨p, r, p', hp, hs, rfl⟩ := apply_act happ
  have hheld : ∃ (j : ℕ) (q : Call), c.procs[j]? = some q ∧ q.Holds ∧ q.addr = p.addr ∧
      p.point = .connecting := by
    by_contra hnone
    apply hloud
    intro p₁ hp₁ hpoint q hq hqholds haddr
    obtain rfl := Option.some.inj (hp.symm.trans hp₁)
    obtain ⟨j, hj⟩ := List.getElem?_of_mem hq
    exact hnone ⟨j, q, hj, hqholds, haddr, hpoint⟩
  obtain ⟨j, q, hq, hqholds, haddr, hpoint⟩ := hheld
  have hji : j ≠ i := by
    rintro rfl
    obtain rfl := Option.some.inj (hq.symm.trans hp)
    simp [Call.Holds, Call.Live, hpoint] at hqholds
  have hconn : q.conn ≠ p.conn := fun hsame => hji (orderly_conn h j i q p hq hp hsame)
  have hentry : r.peers q.addr = some p.conn := by
    cases program_step hs with
    | registers _ => rw [haddr]; exact Function.update_self ..
    | connects hother => cases hother.symm.trans hpoint
    | givesUp _ =>
      unfold program at hs
      simp only [hpoint] at hs
      cases congrArg Call.point (Prod.mk.inj (Option.some.inj hs)).2
    | creates hother => cases hother.symm.trans hpoint
    | runs hother => cases hother.symm.trans hpoint
    | cleansUp hother => cases hother.symm.trans hpoint
  have hq' : (c.procs.set i p')[j]? = some q := by
    rw [List.getElem?_set_ne hji.symm]
    exact hq
  rcases hqholds with hemitting | hlive
  · have hstep : program .proceeds r q =
        some ({ r with rates := Function.update r.rates q.addr (some q.conn) }, q.goto .created) := by
      unfold program
      simp only [hemitting]
    refine Or.inr ⟨j, ⟨{ r with rates := Function.update r.rates q.addr (some q.conn) },
      (c.procs.set i p').set j (q.goto .created)⟩, ?_, ?_⟩
    · simp only [apply, hq', hstep]
    · intro hexclusive
      have hmem : q.goto .created ∈ (c.procs.set i p').set j (q.goto .created) := by
        apply List.mem_set
        exact (List.getElem?_eq_some_iff.mp hq').1
      have hown := (hexclusive.own _ hmem (Or.inl rfl)).1
      exact hconn (Option.some.inj (hown.symm.trans hentry))
  · refine Or.inl fun hexclusive => ?_
    have hown := (hexclusive.own q (List.mem_of_getElem? hq') hlive).1
    exact hconn (Option.some.inj (hown.symm.trans hentry))

/-- Where no address is registered while another connection holds it, each address has at most one
live task, and its entries are removed by their own task only. Any other registration takes the
entry of a live task away, or of one that the next step of its call creates. -/
theorem registry_exclusive {c : Config Registry Call} (h : Reach program Orderly initial c) :
    Exclusive c ∧
      (∀ (i : ℕ) a p p' r, c.procs[i]? = some p → p.point = .running →
        program a c.shared p = some (r, p') → RemovesOwn c p r) ∧
      ∀ i c', ¬ Orderly c (.act i .proceeds) → apply program c (.act i .proceeds) = some c' →
        ¬ Exclusive c' ∨
          ∃ j c'', apply program c' (.act j .proceeds) = some c'' ∧ ¬ Exclusive c'' := by
  have hinv := orderly_invariant h
  refine ⟨hinv.exclusive, ?_, ?_⟩
  · intro i a p p' r hp hrunning hs
    exact hinv.removesOwn hp hrunning hs
  · intro i c' hloud happ
    exact not_exclusive_of_held h hloud happ

def reconnecting : List (Move Call Action) :=
  [.spawn ⟨false, ⟨[97], 1⟩, 0, .starting⟩, .act 0 .proceeds, .act 0 .proceeds, .act 0 .proceeds,
    .act 0 .proceeds, .act 0 .fails, .spawn ⟨true, ⟨[97], 1⟩, 1, .starting⟩, .act 1 .proceeds,
    .act 1 .proceeds, .act 1 .proceeds]

/-- A peer that connects again after its task has ended. -/
theorem registry_exclusive_reconnect : ∃ c, run program initial reconnecting = some c ∧
    Exclusive c ∧ c.shared.rates ⟨[97], 1⟩ = some 1 := by
  have hallowed : Allowed program Orderly initial reconnecting := by decide
  obtain ⟨c, hrun, hrates⟩ : ∃ c, run program initial reconnecting = some c ∧
      c.shared.rates ⟨[97], 1⟩ = some 1 := ⟨_, rfl, rfl⟩
  exact ⟨c, hrun, (registry_exclusive (reach_run hallowed hrun)).1, hrates⟩

/-- Two `add_peer` calls look for the address before either has connected. -/
theorem two_tasks_for_one_address : ∃ c,
    run program initial [.spawn ⟨false, ⟨[97], 1⟩, 0, .starting⟩,
      .spawn ⟨false, ⟨[97], 1⟩, 1, .starting⟩, .act 0 .proceeds, .act 1 .proceeds, .act 0 .proceeds,
      .act 0 .proceeds, .act 1 .proceeds, .act 1 .proceeds] = some c ∧ ¬ Exclusive c := by
  refine ⟨_, rfl, fun h => ?_⟩
  have hsame := h.single 0 1 _ _ rfl rfl (by decide) (by decide) rfl
  cases hsame

end PeerRegistry
