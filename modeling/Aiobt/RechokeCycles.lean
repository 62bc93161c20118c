import Aiobt.PieceEngine
import Aiobt.InterleavedProcesses
import Aiobt.LiveDict

/-! # Rechoke cycles

The `ChokingManager` of `choking.py`. Peers register and unregister while a cycle waits for one of
its messages to be sent. -/
namespace RechokeCycles

open ByteStrings InterleavedProcesses LiveDict
open PieceEngine (Address)

structure PeerRates where
  isConnected : Bool
  bytesDownInterval : ℕ
  bytesUpInterval : ℕ
  amChoking : Bool
  peerInterested : Bool
  deriving DecidableEq, Repr

def PeerRates.new (isConnected : Bool) : PeerRates := ⟨isConnected, 0, 0, true, false⟩

def PeerRates.resetInterval (r : PeerRates) : PeerRates :=
  { r with bytesDownInterval := 0, bytesUpInterval := 0 }

structure ChokingManager where
  maxUnchoked : ℤ
  optimisticEvery : ℕ
  rates : Dict Address PeerRates
  optimisticAddr : Option Address
  ticksSinceOptimistic : ℕ
  isSeeding : Bool

namespace ChokingManager

def register (compacts : Bool) (addr : Address) (isConnected : Bool) (m : ChokingManager) :
    ChokingManager :=
  { m with rates := m.rates.set compacts addr (.new isConnected) }

def unregister (addr : Address) (m : ChokingManager) : ChokingManager :=
  { m with
    rates := m.rates.pop addr
    optimisticAddr := if m.optimisticAddr = some addr then none else m.optimisticAddr }

def interested (m : ChokingManager) : List (Address × PeerRates) :=
  m.rates.entries.filter fun e => e.2.peerInterested && e.2.isConnected

def relevantRate (m : ChokingManager) (r : PeerRates) : ℕ :=
  if m.isSeeding then r.bytesUpInterval else r.bytesDownInterval

/-- The sort is stable, also with `reverse=True`. -/
def ranked (m : ChokingManager) : List (Address × PeerRates) :=
  m.interested.insertionSort fun x y => m.relevantRate y.2 ≤ m.relevantRate x.2

def topUnchoked (m : ChokingManager) : List Address :=
  (m.ranked.take (sliceBound m.ranked.length m.maxUnchoked)).map Prod.fst

def rotateOptimistic (m : ChokingManager) : Bool :=
  decide (m.optimisticEvery ≤ m.ticksSinceOptimistic + 1)

def tick (m : ChokingManager) : ChokingManager :=
  { m with
    ticksSinceOptimistic := if m.rotateOptimistic then 0 else m.ticksSinceOptimistic + 1 }

def chokedInterested (m : ChokingManager) : List Address :=
  (m.ranked.map Prod.fst).filter fun addr => addr ∉ m.topUnchoked

/-- `pick` is what `random.choice` goes by; there is no choice among no addresses. -/
def chooseOptimistic (pick : ℕ) (m : ChokingManager) : ChokingManager :=
  { m with optimisticAddr := m.chokedInterested[pick % m.chokedInterested.length]? }

/-- `_rechoke` up to its loop: the addresses to unchoke, if any peer is interested. -/
def beginRechoke (pick : ℕ) (m : ChokingManager) : ChokingManager × Option (Finset Address) :=
  if m.tick.interested = [] then (m.tick, none)
  else
    let m := if m.rotateOptimistic then m.tick.chooseOptimistic pick else m.tick
    (m, some (m.topUnchoked.toFinset ∪ m.optimisticAddr.toFinset))

end ChokingManager

def needsMessage (toUnchoke : Finset Address) (addr : Address) (r : PeerRates) : Bool :=
  r.isConnected && (decide (addr ∈ toUnchoke) == r.amChoking)

inductive Phase where
  | waiting
  | sending (toUnchoke : Finset Address) (it : Iter)
  | stopped
  | dead
  deriving DecidableEq

def applyDecisions (toUnchoke : Finset Address) (m : ChokingManager) (it : Iter) :
    ChokingManager × Phase :=
  match m.rates.seek (needsMessage toUnchoke) it with
  | .raises => (m, .dead)
  | .stops => ({ m with rates := m.rates.mapValues fun _ r => r.resetInterval }, .waiting)
  | .yields addr _ it' =>
    ({ m with rates := m.rates.modify addr fun r =>
        { r with amChoking := decide (addr ∉ toUnchoke) } }, .sending toUnchoke it')

def rechoke (pick : ℕ) (m : ChokingManager) : ChokingManager × Phase :=
  match m.beginRechoke pick with
  | (m, none) => (m, .waiting)
  | (m, some toUnchoke) => applyDecisions toUnchoke m m.rates.iter

/-- The `run` loop, or whoever else uses the manager. -/
inductive Proc where
  | loop (phase : Phase)
  | client
  deriving DecidableEq

inductive Action where
  /-- The timer or the wake event starts a cycle. -/
  | rechokes (pick : ℕ)
  /-- `send_message` returns, or raises `ConnectionError` or `OSError`. -/
  | returns
  | stops
  | registers (compacts : Bool) (addr : Address) (isConnected : Bool)
  | unregisters (addr : Address)
  | changes (addr : Address) (r : PeerRates)
  | seeds (isSeeding : Bool)

def program : Program ChokingManager Proc Action
  | .rechokes pick, m, .loop .waiting => some ((rechoke pick m).1, .loop (rechoke pick m).2)
  | .returns, m, .loop (.sending toUnchoke it) =>
    some ((applyDecisions toUnchoke m it).1, .loop (applyDecisions toUnchoke m it).2)
  | .stops, m, .loop .waiting => some (m, .loop .stopped)
  | .stops, m, .loop (.sending _ _) => some (m, .loop .stopped)
  | .registers compacts addr isConnected, m, .client =>
    some (m.register compacts addr isConnected, .client)
  | .unregisters addr, m, .client => some (m.unregister addr, .client)
  | .changes addr r, m, .client =>
    some ({ m with rates := m.rates.modify addr fun _ => r }, .client)
  | .seeds isSeeding, m, .client => some ({ m with isSeeding := isSeeding }, .client)
  | _, _, _ => none

theorem beginRechoke_rates (pick : ℕ) (m : ChokingManager) :
    (m.beginRechoke pick).1.rates = m.rates := by
  unfold ChokingManager.beginRechoke
  by_cases hnone : m.tick.interested = []
  · rw [if_pos hnone]
    rfl
  · rw [if_neg hnone]
    by_cases hrotate : m.rotateOptimistic = true
    · simp only [if_pos hrotate]
      rfl
    · simp only [if_neg hrotate]
      rfl

/-- An undisturbed cycle goes on to a later peer, or is complete. -/
theorem applyDecisions_undisturbed (toUnchoke : Finset Address) {m : ChokingManager} {it : Iter}
    (h : m.rates.Undisturbed it) :
    (applyDecisions toUnchoke m it).2 = .waiting ∨
      ∃ it', (applyDecisions toUnchoke m it).2 = .sending toUnchoke it' ∧ it'.left < it.left ∧
        (applyDecisions toUnchoke m it).1.rates.Undisturbed it' := by
  unfold applyDecisions
  rcases Dict.seek_undisturbed (p := needsMessage toUnchoke) h with ⟨hstops, -⟩ |
    ⟨addr, r, it', passed, hyields, hit', hleft, -⟩
  · rw [hstops]
    exact Or.inl rfl
  · rw [hyields]
    exact Or.inr ⟨it', rfl, hleft, (Dict.undisturbed_mapValues _).mpr hit'⟩

/-- A cycle that finds another number of peers ends the loop. -/
theorem applyDecisions_of_size_ne (toUnchoke : Finset Address) {m : ChokingManager} {it : Iter}
    (h : m.rates.size ≠ it.used) : (applyDecisions toUnchoke m it).2 = .dead := by
  unfold applyDecisions
  rw [Dict.seek_of_size_ne h]

theorem rechoke_undisturbed (pick : ℕ) (m : ChokingManager) :
    (rechoke pick m).2 = .waiting ∨ ∃ toUnchoke it,
      (rechoke pick m).2 = .sending toUnchoke it ∧ (rechoke pick m).1.rates.Undisturbed it := by
  unfold rechoke
  split
  · exact Or.inl rfl
  · next m' toUnchoke _ =>
    rcases applyDecisions_undisturbed toUnchoke (Dict.undisturbed_iter m'.rates) with
      hwait | ⟨it, hsend, -, hit⟩
    · exact Or.inl hwait
    · exact Or.inr ⟨toUnchoke, it, hsend, hit⟩

/-- Only a send that returns can end the loop with an exception. -/
theorem program_dead {a : Action} {m m' : ChokingManager} {p : Proc}
    (h : program a m p = some (m', .loop .dead)) : a = .returns ∧ ∃ toUnchoke it,
      p = .loop (.sending toUnchoke it) ∧ (applyDecisions toUnchoke m it).2 = .dead := by
  unfold program at h
  split at h
  · next pick =>
    have hdead : (rechoke pick m).2 = .dead := Proc.loop.inj (Prod.mk.inj (Option.some.inj h)).2
    rcases rechoke_undisturbed pick m with hwait | ⟨toUnchoke, it, hsend, -⟩
    · cases hwait.symm.trans hdead
    · cases hsend.symm.trans hdead
  · next toUnchoke it =>
    exact ⟨rfl, toUnchoke, it, rfl, Proc.loop.inj (Prod.mk.inj (Option.some.inj h)).2⟩
  all_goals cases h

theorem applyDecisions_rates (toUnchoke : Finset Address) (m : ChokingManager) (it it' : Iter) :
    (applyDecisions toUnchoke m it).1.rates.Undisturbed it' ↔ m.rates.Undisturbed it' := by
  unfold applyDecisions
  split
  · rfl
  · exact Dict.undisturbed_mapValues _
  · exact Dict.undisturbed_mapValues _

theorem rechoke_rates (pick : ℕ) (m : ChokingManager) (it : Iter) :
    (rechoke pick m).1.rates.Undisturbed it ↔ m.rates.Undisturbed it := by
  have hrates := beginRechoke_rates pick m
  unfold rechoke
  split
  · next m₁ heq =>
    rw [heq] at hrates
    rw [hrates]
  · next m₁ toUnchoke heq =>
    rw [heq] at hrates
    rw [applyDecisions_rates, hrates]

/-- Only new addresses and addresses that go disturb an iteration. -/
theorem program_undisturbed {a : Action} {m m' : ChokingManager} {p p' : Proc}
    (h : program a m p = some (m', p'))
    (hregister : ∀ compacts addr r, a = .registers compacts addr r → addr ∈ m.rates.keys)
    (hunregister : ∀ addr, a = .unregisters addr → addr ∉ m.rates.keys) (it : Iter) :
    m'.rates.Undisturbed it ↔ m.rates.Undisturbed it := by
  unfold program at h
  split at h
  · next pick =>
    rw [← (Prod.mk.inj (Option.some.inj h)).1]
    exact rechoke_rates pick m it
  · next toUnchoke it' =>
    rw [← (Prod.mk.inj (Option.some.inj h)).1]
    exact applyDecisions_rates toUnchoke m it' it
  · rw [← (Prod.mk.inj (Option.some.inj h)).1]
  · rw [← (Prod.mk.inj (Option.some.inj h)).1]
  · next compacts addr r =>
    rw [← (Prod.mk.inj (Option.some.inj h)).1, ChokingManager.register,
      Dict.set_of_mem compacts (hregister compacts addr r rfl)]
    exact Dict.undisturbed_mapValues _
  · next addr =>
    rw [← (Prod.mk.inj (Option.some.inj h)).1, ChokingManager.unregister,
      Dict.pop_of_not_mem (hunregister addr rfl)]
  · rw [← (Prod.mk.inj (Option.some.inj h)).1]
    exact Dict.undisturbed_mapValues _
  · rw [← (Prod.mk.inj (Option.some.inj h)).1]
  · cases h

theorem program_sending {a : Action} {m m' : ChokingManager} {p : Proc}
    {toUnchoke : Finset Address} {it : Iter}
    (h : program a m p = some (m', .loop (.sending toUnchoke it))) :
    (∃ pick, a = .rechokes pick ∧ (rechoke pick m).2 = .sending toUnchoke it ∧
        m' = (rechoke pick m).1) ∨
      ∃ it', a = .returns ∧ p = .loop (.sending toUnchoke it') ∧
        m' = (applyDecisions toUnchoke m it').1 ∧
        (applyDecisions toUnchoke m it').2 = .sending toUnchoke it := by
  have hkeeps : ∀ toUnchoke' it', (applyDecisions toUnchoke' m it').2 = .sending toUnchoke it →
      toUnchoke' = toUnchoke := by
    intro toUnchoke' it' hsend
    unfold applyDecisions at hsend
    split at hsend
    · cases hsend
    · cases hsend
    · exact (Phase.sending.inj hsend).1
  unfold program at h
  split at h
  · next pick =>
    obtain ⟨hm, hp⟩ := Prod.mk.inj (Option.some.inj h)
    exact Or.inl ⟨pick, rfl, Proc.loop.inj hp, hm.symm⟩
  · next toUnchoke' it' =>
    obtain ⟨hm, hp⟩ := Prod.mk.inj (Option.some.inj h)
    obtain rfl := hkeeps toUnchoke' it' (Proc.loop.inj hp)
    exact Or.inr ⟨it', rfl, rfl, hm.symm, Proc.loop.inj hp⟩
  all_goals cases h

def Fresh (p : Proc) : Prop := p = .loop .waiting ∨ p = .client

instance (p : Proc) : Decidable (Fresh p) := inferInstanceAs (Decidable (_ ∨ _))

/-- When a send returns, the registrations are those that the cycle expects. -/
def LeftAlone (c : Config ChokingManager Proc) : Move Proc Action → Prop
  | .spawn p => Fresh p
  | .act i .returns => ∀ toUnchoke it, c.procs[i]? = some (.loop (.sending toUnchoke it)) →
      c.shared.rates.Undisturbed it
  | .act _ _ => True

def Idle (c : Config ChokingManager Proc) : Prop :=
  ∀ toUnchoke it, .loop (.sending toUnchoke it) ∉ c.procs

/-- No address comes or goes while a message is being sent. -/
def Calm (c : Config ChokingManager Proc) : Move Proc Action → Prop
  | .spawn p => Fresh p
  | .act _ (.registers _ addr _) => addr ∈ c.shared.rates.keys ∨ Idle c
  | .act _ (.unregisters addr) => addr ∉ c.shared.rates.keys ∨ Idle c
  | .act _ _ => True

def initial (m : ChokingManager) : Config ChokingManager Proc := ⟨m, [.loop .waiting]⟩

theorem leftAlone_alive {m : ChokingManager} {c : Config ChokingManager Proc}
    (h : Reach program LeftAlone (initial m) c) : .loop .dead ∉ c.procs := by
  refine h.invariant (I := fun c => .loop .dead ∉ c.procs) ?_ ?_ ?_
  · intro hdead
    cases List.mem_singleton.mp hdead
  · intro c p ih hp hdead
    rcases List.mem_append.mp hdead with hdead | hdead
    · exact ih hdead
    · obtain rfl := List.mem_singleton.mp hdead
      rcases hp with hp | hp
      · cases hp
      · cases hp
  · intro c i a p m' p' ih hok hp hs hdead
    rcases mem_set_cases hdead with rfl | hdead
    · obtain ⟨rfl, toUnchoke, it, rfl, hend⟩ := program_dead hs
      rcases applyDecisions_undisturbed toUnchoke (hok toUnchoke it hp) with hwait | ⟨it', hsend, -⟩
      · cases hwait.symm.trans hend
      · cases hsend.symm.trans hend
    · exact ih hdead

theorem calm_undisturbed {m : ChokingManager} {c : Config ChokingManager Proc}
    (h : Reach program Calm (initial m) c) :
    ∀ toUnchoke it, .loop (.sending toUnchoke it) ∈ c.procs → c.shared.rates.Undisturbed it := by
  refine h.invariant (I := fun c => ∀ toUnchoke it, .loop (.sending toUnchoke it) ∈ c.procs →
    c.shared.rates.Undisturbed it) ?_ ?_ ?_
  · intro toUnchoke it hmem
    cases List.mem_singleton.mp hmem
  · intro c p ih hp toUnchoke it hmem
    rcases List.mem_append.mp hmem with hmem | hmem
    · exact ih toUnchoke it hmem
    · obtain rfl := List.mem_singleton.mp hmem
      rcases hp with hp | hp
      · cases hp
      · cases hp
  · intro c i a p m' p' ih hok hp hs toUnchoke it hmem
    rcases mem_set_cases hmem with rfl | hmem
    · rcases program_sending hs with ⟨pick, rfl, hsend, rfl⟩ | ⟨it', rfl, rfl, rfl, hsend⟩
      · rcases rechoke_undisturbed pick c.shared with hwait | ⟨toUnchoke', it', hsend', hit'⟩
        · cases hwait.symm.trans hsend
        · cases hsend'.symm.trans hsend
          exact hit'
      · have hit' := ih toUnchoke it' (List.mem_of_getElem? hp)
        rcases applyDecisions_undisturbed toUnchoke hit' with hwait | ⟨it'', hsend', -, hit''⟩
        · cases hwait.symm.trans hsend
        · cases hsend'.symm.trans hsend
          exact hit''
    · have hbusy : ¬ Idle c := fun hidle => hidle toUnchoke it hmem
      refine (program_undisturbed hs ?_ ?_ it).mpr (ih toUnchoke it hmem)
      · rintro compacts addr r rfl
        exact Or.resolve_right hok hbusy
      · rintro addr rfl
        exact Or.resolve_right hok hbusy

theorem calm_leftAlone {m : ChokingManager} {c : Config ChokingManager Proc}
    (h : Reach program Calm (initial m) c) : Reach program LeftAlone (initial m) c := by
  induction h with
  | refl => exact .refl
  | next move hreach hok happ ih =>
    refine .next move ih ?_ happ
    cases move with
    | spawn p => exact hok
    | act i a =>
      cases a with
      | returns =>
        exact fun toUnchoke it hp =>
          calm_undisturbed hreach toUnchoke it (List.mem_of_getElem? hp)
      | _ => trivial

/-- The loop survives where each send that returns finds the registrations that its cycle expects,
in particular where no address comes or goes during a send; then each return brings the cycle nearer
to its end. A return that finds another number of peers ends the loop. -/
theorem rechoke_survives (m : ChokingManager) :
    (∀ c, Reach program LeftAlone (initial m) c → .loop .dead ∉ c.procs) ∧
      (∀ c, Reach program Calm (initial m) c → .loop .dead ∉ c.procs) ∧
      (∀ toUnchoke it (m' : ChokingManager), m'.rates.Undisturbed it →
        (applyDecisions toUnchoke m' it).2 = .waiting ∨
          ∃ it', (applyDecisions toUnchoke m' it).2 = .sending toUnchoke it' ∧ it'.left < it.left) ∧
      ∀ toUnchoke it (m' : ChokingManager), m'.rates.size ≠ it.used →
        (applyDecisions toUnchoke m' it).2 = .dead := by
  refine ⟨fun c h => leftAlone_alive h, fun c h => leftAlone_alive (calm_leftAlone h), ?_, ?_⟩
  · intro toUnchoke it m' h
    rcases applyDecisions_undisturbed toUnchoke h with hwait | ⟨it', hsend, hleft, -⟩
    · exact Or.inl hwait
    · exact Or.inr ⟨it', hsend, hleft⟩
  · intro toUnchoke it m' h
    exact applyDecisions_of_size_ne toUnchoke h

def onePeer : ChokingManager where
  maxUnchoked := 4
  optimisticEvery := 3
  rates := ⟨[some (⟨[97], 1⟩, ⟨true, 0, 0, true, true⟩)], by decide⟩
  optimisticAddr := none
  ticksSinceOptimistic := 0
  isSeeding := false

/-- The peer registers once more while it is sent its Unchoke. -/
theorem rechoke_survives_one_peer : ∃ c,
    run program (initial onePeer) [.spawn .client, .act 0 (.rechokes 0),
      .act 1 (.registers false ⟨[97], 1⟩ true), .act 0 .returns] = some c ∧
      .loop .dead ∉ c.procs := by
  obtain ⟨c, hrun⟩ : ∃ c, run program (initial onePeer) [.spawn .client, .act 0 (.rechokes 0),
      .act 1 (.registers false ⟨[97], 1⟩ true), .act 0 .returns] = some c := ⟨_, rfl⟩
  refine ⟨c, hrun, (rechoke_survives onePeer).2.1 c (reach_run ?_ hrun)⟩
  refine ⟨Or.inr rfl, fun c₁ h₁ => ⟨trivial, fun c₂ h₂ => ⟨Or.inl ?_, fun c₃ h₃ => ⟨trivial, ?_⟩⟩⟩⟩
  · cases h₁
    cases h₂
    decide
  · exact fun _ _ => trivial

/-- A second peer connects while the first one is sent its Unchoke. -/
theorem rechoke_dies_of_new_peer : ∃ c,
    run program (initial onePeer) [.spawn .client, .act 0 (.rechokes 0),
      .act 1 (.registers false ⟨[98], 2⟩ true), .act 0 .returns] = some c ∧
      .loop .dead ∈ c.procs := ⟨_, rfl, by decide⟩

end RechokeCycles
