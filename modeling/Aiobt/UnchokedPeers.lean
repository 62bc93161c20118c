import Aiobt.ChokingLoop

/-! # Unchoked peers

Which peers a cycle leaves unchoked, alone and in runs of the choking loop. -/
namespace UnchokedPeers

open InterleavedProcesses LiveDict ChokingLoop
open RechokeCycles (PeerRates ChokingManager Phase needsMessage applyDecisions rechoke)
open PieceEngine (Address)

/-- What a cycle makes of a peer, before the counters are reset. -/
def decided (toUnchoke : Finset Address) (addr : Address) (r : PeerRates) : PeerRates :=
  if r.isConnected then { r with amChoking := decide (addr ∉ toUnchoke) } else r

/-- The sends return one after the other, and nothing else happens. -/
def finishCycle (toUnchoke : Finset Address) : ℕ → ChokingManager → Iter → ChokingManager × Phase
  | 0, m, it => (m, .sending toUnchoke it)
  | n + 1, m, it =>
    match applyDecisions toUnchoke m it with
    | (m, .sending _ it) => finishCycle toUnchoke n m it
    | next => next

def undisturbedCycle (pick : ℕ) (m : ChokingManager) : ChokingManager × Phase :=
  match m.beginRechoke pick with
  | (m, none) => (m, .waiting)
  | (m, some toUnchoke) => finishCycle toUnchoke (m.rates.size + 1) m m.rates.iter

variable {toUnchoke : Finset Address} {m : ChokingManager} {it : Iter}

theorem decided_eq_self {addr : Address} {r : PeerRates} (h : needsMessage toUnchoke addr r = false) :
    decided toUnchoke addr r = r := by
  unfold decided
  by_cases hconnected : r.isConnected = true
  · rw [if_pos hconnected]
    have hchoking : decide (addr ∉ toUnchoke) = r.amChoking := by
      rw [needsMessage, hconnected, Bool.true_and] at h
      cases hr : r.amChoking <;> simp_all
    rw [hchoking]
  · rw [if_neg hconnected]

theorem decided_set {addr : Address} {r : PeerRates} (h : r.isConnected = true) :
    decided toUnchoke addr { r with amChoking := decide (addr ∉ toUnchoke) } =
      { r with amChoking := decide (addr ∉ toUnchoke) } := if_pos h

theorem entry_unique {κ ν : Type} {d : Dict κ ν} {e e' : κ × ν} (he : e ∈ d.entries)
    (he' : e' ∈ d.entries) (h : e.1 = e'.1) : e = e' :=
  List.inj_on_of_nodup_map d.unique he he' h

/-- The loop of `_rechoke` has passed over peers that are decided, to one that is sent a message or
to the end. -/
theorem applyDecisions_cases (toUnchoke : Finset Address) (h : m.rates.Undisturbed it) :
    ((∀ e ∈ m.rates.ahead it.position, needsMessage toUnchoke e.1 e.2 = false) ∧
      applyDecisions toUnchoke m it =
        ({ m with rates := m.rates.mapValues fun _ r => r.resetInterval }, .waiting)) ∨
      ∃ addr r it' passed, it'.left < it.left ∧ r.isConnected = true ∧
        (∀ e ∈ passed, needsMessage toUnchoke e.1 e.2 = false) ∧
        (addr, r) ∈ m.rates.entries ∧ m.rates.Undisturbed it' ∧
        m.rates.behind it'.position = m.rates.behind it.position ++ (passed ++ [(addr, r)]) ∧
        applyDecisions toUnchoke m it =
          ({ m with rates := m.rates.modify addr fun r =>
              { r with amChoking := decide (addr ∉ toUnchoke) } }, .sending toUnchoke it') := by
  rcases Dict.seek_undisturbed (p := needsMessage toUnchoke) h with ⟨hstops, hall⟩ |
    ⟨addr, r, it', passed, hyields, hit', hleft, hneeds, hpassed, hahead⟩
  · refine Or.inl ⟨hall, ?_⟩
    unfold applyDecisions
    rw [hstops]
  · have hconnected : r.isConnected = true := (Bool.and_eq_true_iff.mp hneeds).1
    have hin : (addr, r) ∈ m.rates.ahead it.position := by
      rw [hahead]
      exact List.mem_append_right _ List.mem_cons_self
    have hmem : (addr, r) ∈ m.rates.entries := Dict.mem_entries_of_ahead hin
    have hpast : m.rates.ahead it.position = passed ++ [(addr, r)] ++ m.rates.ahead it'.position := by
      rw [hahead, List.append_assoc]
      rfl
    have hbehind := Dict.behind_of_ahead hpast
    refine Or.inr ⟨addr, r, it', passed, hleft, hconnected, hpassed, hmem, hit', hbehind, ?_⟩
    unfold applyDecisions
    rw [hyields]

/-- A peer whose choking is changed on the way comes out as it would at the end. -/
theorem decided_modify {rates : Dict Address PeerRates} {addr : Address} {r : PeerRates}
    (hmem : (addr, r) ∈ rates.entries) (hconnected : r.isConnected = true) :
    (rates.modify addr fun r => { r with amChoking := decide (addr ∉ toUnchoke) }).mapValues
        (fun addr r => (decided toUnchoke addr r).resetInterval) =
      rates.mapValues fun addr r => (decided toUnchoke addr r).resetInterval := by
  rw [Dict.modify, Dict.mapValues_mapValues]
  apply Dict.mapValues_congr
  intro e he
  by_cases haddr : e.1 = addr
  · obtain rfl := entry_unique he hmem haddr
    simp only [if_true]
    rw [decided_set hconnected, decided, if_pos hconnected]
  · simp only [if_neg haddr]

theorem behind_modify {rates : Dict Address PeerRates} {addr : Address} {r : PeerRates}
    {position : ℕ} {before passed : List (Address × PeerRates)} (hmem : (addr, r) ∈ rates.entries)
    (hconnected : r.isConnected = true)
    (hsplit : rates.behind position = before ++ (passed ++ [(addr, r)]))
    (hbefore : ∀ e ∈ before, decided toUnchoke e.1 e.2 = e.2)
    (hpassed : ∀ e ∈ passed, needsMessage toUnchoke e.1 e.2 = false) :
    ∀ e ∈ (rates.modify addr fun r => { r with amChoking := decide (addr ∉ toUnchoke) }).behind
      position, decided toUnchoke e.1 e.2 = e.2 := by
  intro e he
  rw [Dict.modify, Dict.behind_mapValues] at he
  obtain ⟨e₀, he₀, rfl⟩ := List.mem_map.mp he
  by_cases haddr : e₀.1 = addr
  · obtain rfl := entry_unique (Dict.mem_entries_of_behind he₀) hmem haddr
    simp only [if_true]
    exact decided_set hconnected
  · simp only [if_neg haddr]
    rw [hsplit] at he₀
    rcases List.mem_append.mp he₀ with he₀ | he₀
    · exact hbefore e₀ he₀
    · rcases List.mem_append.mp he₀ with he₀ | he₀
      · exact decided_eq_self (hpassed e₀ he₀)
      · rw [List.mem_singleton.mp he₀] at haddr
        exact absurd rfl haddr

theorem finishCycle_eq (toUnchoke : Finset Address) (n : ℕ) (h : m.rates.Undisturbed it)
    (hn : it.left < n)
    (hbehind : ∀ e ∈ m.rates.behind it.position, decided toUnchoke e.1 e.2 = e.2) :
    finishCycle toUnchoke n m it =
      ({ m with rates := m.rates.mapValues fun addr r => (decided toUnchoke addr r).resetInterval },
        .waiting) := by
  induction n generalizing m it with
  | zero => omega
  | succ n ih =>
    unfold finishCycle
    rcases applyDecisions_cases toUnchoke h with ⟨hall, happly⟩ |
      ⟨addr, r, it', passed, hleft, hconnected, hpassed, hmem, hit', hsplit, happly⟩
    · rw [happly]
      have hdecided : ∀ e ∈ m.rates.entries, decided toUnchoke e.1 e.2 = e.2 := by
        intro e he
        rw [← Dict.behind_append_ahead m.rates it.position] at he
        rcases List.mem_append.mp he with he | he
        · exact hbehind e he
        · exact decided_eq_self (hall e he)
      have hrates : (m.rates.mapValues fun _ r => r.resetInterval) =
          m.rates.mapValues fun addr r => (decided toUnchoke addr r).resetInterval := by
        apply Dict.mapValues_congr
        intro e he
        rw [hdecided e he]
      rw [hrates]
    · rw [happly]
      have hstill : (m.rates.modify addr fun r =>
          { r with amChoking := decide (addr ∉ toUnchoke) }).Undisturbed it' :=
        (Dict.undisturbed_mapValues _).mpr hit'
      have hnext := ih (m := { m with rates := m.rates.modify addr fun r =>
        { r with amChoking := decide (addr ∉ toUnchoke) } }) hstill (by omega)
        (behind_modify hmem hconnected hsplit hbehind hpassed)
      rw [decided_modify hmem hconnected] at hnext
      exact hnext

theorem mem_interested {e : Address × PeerRates} :
    e ∈ m.interested ↔ e ∈ m.rates.entries ∧ e.2.peerInterested = true ∧ e.2.isConnected = true := by
  rw [ChokingManager.interested, List.mem_filter, Bool.and_eq_true]

theorem mem_ranked {e : Address × PeerRates} : e ∈ m.ranked ↔ e ∈ m.interested :=
  (List.perm_insertionSort _ _).mem_iff

theorem mem_interestedAddrs {e : Address × PeerRates} (he : e ∈ m.rates.entries) :
    e.1 ∈ interestedAddrs m ↔ e.2.peerInterested = true := by
  rw [interestedAddrs, List.mem_toFinset, List.mem_map]
  constructor
  · rintro ⟨e', he', haddr⟩
    obtain ⟨hmem, hinterested⟩ := List.mem_filter.mp he'
    rw [← entry_unique hmem he haddr]
    exact hinterested
  · intro h
    exact ⟨e, List.mem_filter.mpr ⟨he, h⟩, rfl⟩

theorem ranked_interested {addr : Address} (h : addr ∈ m.ranked.map Prod.fst) :
    addr ∈ interestedAddrs m := by
  obtain ⟨e, he, rfl⟩ := List.mem_map.mp h
  obtain ⟨hmem, hinterested, -⟩ := mem_interested.mp (mem_ranked.mp he)
  exact (mem_interestedAddrs hmem).mpr hinterested

theorem topUnchoked_interested {addr : Address} (h : addr ∈ m.topUnchoked) :
    addr ∈ interestedAddrs m := by
  obtain ⟨e, he, rfl⟩ := List.mem_map.mp h
  exact ranked_interested (List.mem_map_of_mem (List.mem_of_mem_take he))

theorem chosen_interested {pick : ℕ} {addr : Address}
    (h : (m.chooseOptimistic pick).optimisticAddr = some addr) : addr ∈ interestedAddrs m := by
  have hmem := List.mem_of_getElem? h
  exact ranked_interested (List.mem_filter.mp hmem).1

/-- When a cycle starts among interested peers, it rotates the optimistic slot or the slot is not
held by a connected peer without interest; when it starts among none, no connected peer is
unchoked. -/
def SlotsInterested (m : ChokingManager) : Prop :=
  if m.interested = [] then ∀ e ∈ m.rates.entries, e.2.isConnected = true → e.2.amChoking = true
  else m.rotateOptimistic = true ∨ ∀ e ∈ m.rates.entries, m.optimisticAddr = some e.1 →
    e.2.isConnected = true → e.2.peerInterested = true

instance (m : ChokingManager) : Decidable (SlotsInterested m) := by
  unfold SlotsInterested
  infer_instance

def UnchokedInterested (m : ChokingManager) (collected : Finset Address) : Prop :=
  ∀ e ∈ m.rates.entries, e.2.isConnected = true → e.2.amChoking = false → e.1 ∈ collected

instance (m : ChokingManager) (collected : Finset Address) :
    Decidable (UnchokedInterested m collected) :=
  inferInstanceAs (Decidable (∀ e ∈ m.rates.entries, _))

theorem beginRechoke_cases (pick : ℕ) (m : ChokingManager) :
    (m.interested = [] ∧ m.beginRechoke pick = (m.tick, none)) ∨
      m.interested ≠ [] ∧ ∃ m' toUnchoke, m.beginRechoke pick = (m', some toUnchoke) ∧
        m'.rates = m.rates ∧
        ((∀ e ∈ m.rates.entries, e.2.isConnected = true → e.1 ∈ toUnchoke →
            e.1 ∈ interestedAddrs m) ↔ SlotsInterested m) := by
  by_cases hnone : m.interested = []
  · exact Or.inl ⟨hnone, if_pos hnone⟩
  · have hnone' : m.tick.interested ≠ [] := hnone
    refine Or.inr ⟨hnone, ?_⟩
    by_cases hrotate : m.rotateOptimistic = true
    · let m' := m.tick.chooseOptimistic pick
      refine ⟨m', m'.topUnchoked.toFinset ∪ m'.optimisticAddr.toFinset, ?_, rfl, ?_⟩
      · unfold ChokingManager.beginRechoke
        rw [if_neg hnone']
        simp only [if_pos hrotate]
        rfl
      · rw [SlotsInterested, if_neg hnone]
        refine iff_of_true (fun e he _ hmem => ?_) (Or.inl hrotate)
        rcases Finset.mem_union.mp hmem with htop | hoptimistic
        · exact topUnchoked_interested (List.mem_toFinset.mp htop)
        · exact chosen_interested (m := m) (Option.mem_toFinset.mp hoptimistic)
    · refine ⟨m.tick, m.tick.topUnchoked.toFinset ∪ m.tick.optimisticAddr.toFinset, ?_, rfl, ?_⟩
      · unfold ChokingManager.beginRechoke
        rw [if_neg hnone']
        simp only [if_neg hrotate]
      · rw [SlotsInterested, if_neg hnone]
        constructor
        · intro hall
          refine Or.inr fun e he hholder hconnected => ?_
          apply (mem_interestedAddrs he).mp
          exact hall e he hconnected (Finset.mem_union_right _ (Option.mem_toFinset.mpr hholder))
        · intro hslots e he hconnected hmem
          rcases Finset.mem_union.mp hmem with htop | hoptimistic
          · exact topUnchoked_interested (List.mem_toFinset.mp htop)
          · have hholder := Or.resolve_left hslots hrotate e he (Option.mem_toFinset.mp hoptimistic)
            exact (mem_interestedAddrs he).mpr (hholder hconnected)

/-- A cycle with nobody to unchoke leaves the peers as they are. -/
theorem slotsInterested_of_none (hnone : m.interested = []) :
    UnchokedInterested m (interestedAddrs m) ↔ SlotsInterested m := by
  rw [SlotsInterested, if_pos hnone]
  constructor
  · intro h e he hconnected
    by_contra hchoking
    have hinterested := (mem_interestedAddrs he).mp (h e he hconnected (Bool.eq_false_iff.mpr hchoking))
    have hmem : e ∈ m.interested := mem_interested.mpr ⟨he, hinterested, hconnected⟩
    rw [hnone] at hmem
    cases hmem
  · intro h e he hconnected hunchoked
    cases (h e he hconnected).symm.trans hunchoked

/-- A cycle in which nothing else happens is completed, and its condition is exact. -/
theorem undisturbedCycle_interested (pick : ℕ) (m : ChokingManager) :
    (undisturbedCycle pick m).2 = .waiting ∧
      (UnchokedInterested (undisturbedCycle pick m).1 (interestedAddrs m) ↔ SlotsInterested m) := by
  unfold undisturbedCycle
  rcases beginRechoke_cases pick m with ⟨hnone, hbegin⟩ |
    ⟨hnone, m', toUnchoke, hbegin, hrates, hslots⟩
  · rw [hbegin]
    exact ⟨rfl, slotsInterested_of_none hnone⟩
  · rw [hbegin]
    have hfinish := finishCycle_eq toUnchoke (m'.rates.size + 1)
      (Dict.undisturbed_iter m'.rates) (Nat.lt_succ_self _) (fun e he => by cases he)
    simp only [hfinish, true_and]
    rw [← hslots, hrates]
    constructor
    · intro h e he hconnected hmem
      have hafter : (e.1, (decided toUnchoke e.1 e.2).resetInterval) ∈
          (m.rates.mapValues fun addr r => (decided toUnchoke addr r).resetInterval).entries := by
        rw [Dict.entries_mapValues]
        exact List.mem_map_of_mem he
      rw [decided, if_pos hconnected] at hafter
      have hinterested := h _ hafter
      exact hinterested hconnected (decide_eq_false (not_not.mpr hmem))
    · intro h e he hconnected hunchoked
      simp only [Dict.entries_mapValues] at he
      obtain ⟨e₀, he₀, rfl⟩ := List.mem_map.mp he
      by_cases hconnected₀ : e₀.2.isConnected = true
      · rw [decided, if_pos hconnected₀] at hunchoked
        exact h e₀ he₀ hconnected₀ (not_not.mp (of_decide_eq_false hunchoked))
      · rw [decided, if_neg hconnected₀] at hconnected
        exact absurd hconnected hconnected₀

def Running : Proc → Prop
  | .loop .stopped => False
  | .loop .dead => False
  | .loop _ => True
  | .client => False

instance (p : Proc) : Decidable (Running p) := by
  unfold Running
  split <;> infer_instance

/-- Peers come and go between cycles. A connection is lost for good, and only the loop chokes. One
call of `run` is active at a time. -/
def Between (c : Config Loop Proc) : Move Proc Action → Prop
  | .spawn p => p = .client ∨ p = .loop .starting ∧ ∀ q ∈ c.procs, ¬ Running q
  | .act _ (.registers _ _ _) => ∀ p ∈ c.procs, p.isSending = false
  | .act _ (.unregisters _) => ∀ p ∈ c.procs, p.isSending = false
  | .act _ (.changes addr r) => ∀ e ∈ c.shared.manager.rates.entries, e.1 = addr →
      r.amChoking = e.2.amChoking ∧ (r.isConnected = true → e.2.isConnected = true)
  | .act _ _ => True

/-- Each cycle starts with its slots held by interested peers. -/
def Sound (c : Config Loop Proc) : Move Proc Action → Prop
  | .act i (.rounds stopSet pick) => ∀ point, c.procs[i]? = some (.loop point) →
      startsCycle (.rounds stopSet pick) point = true → SlotsInterested c.shared.manager
  | _ => True

instance (c : Config Loop Proc) : (m : Move Proc Action) → Decidable (Between c m)
  | .spawn _ => inferInstanceAs (Decidable (_ ∨ _))
  | .act _ (.registers _ _ _) => inferInstanceAs (Decidable (∀ p ∈ c.procs, _))
  | .act _ (.unregisters _) => inferInstanceAs (Decidable (∀ p ∈ c.procs, _))
  | .act _ (.changes _ _) => inferInstanceAs (Decidable (∀ e ∈ c.shared.manager.rates.entries, _))
  | .act _ (.rounds _ _) => .isTrue trivial
  | .act _ .returns => .isTrue trivial
  | .act _ (.stirs _) => .isTrue trivial
  | .act _ .cancelled => .isTrue trivial
  | .act _ (.seeds _) => .isTrue trivial
  | .act _ .wakes => .isTrue trivial

instance (c : Config Loop Proc) : (m : Move Proc Action) → Decidable (Sound c m)
  | .spawn _ => .isTrue trivial
  | .act i (.rounds stopSet pick) =>
    match h : c.procs[i]? with
    | some (.loop point) => decidable_of_iff
        (startsCycle (.rounds stopSet pick) point = true → SlotsInterested c.shared.manager)
        (by simp [Sound, h])
    | some .client => .isTrue (by simp [Sound, h])
    | none => .isTrue (by simp [Sound, h])
  | .act _ (.registers _ _ _) => .isTrue trivial
  | .act _ (.unregisters _) => .isTrue trivial
  | .act _ (.changes _ _) => .isTrue trivial
  | .act _ .returns => .isTrue trivial
  | .act _ (.stirs _) => .isTrue trivial
  | .act _ .cancelled => .isTrue trivial
  | .act _ (.seeds _) => .isTrue trivial
  | .act _ .wakes => .isTrue trivial

structure InCycle (s : Loop) (toUnchoke : Finset Address) (it : Iter) : Prop where
  undisturbed : s.manager.rates.Undisturbed it
  behind : ∀ e ∈ s.manager.rates.behind it.position, e.2.isConnected = true →
    e.2.amChoking = false → e.1 ∈ toUnchoke
  interested : ∀ e ∈ s.manager.rates.entries, e.2.isConnected = true → e.1 ∈ toUnchoke →
    e.1 ∈ s.collected

structure Settled (c : Config Loop Proc) : Prop where
  single : ∀ (i j : ℕ) p q, c.procs[i]? = some p → c.procs[j]? = some q → Running p → Running q →
    i = j
  sending : ∀ toUnchoke it, .loop (.sending toUnchoke it) ∈ c.procs → InCycle c.shared toUnchoke it

variable {s s' : Loop} {point : Point}

theorem unchoked_of_decided {addr : Address} {r : PeerRates} (hconnected : r.isConnected = true)
    (hunchoked : r.amChoking = false) (h : needsMessage toUnchoke addr r = false) :
    addr ∈ toUnchoke := by
  have hdecided := congrArg PeerRates.amChoking (decided_eq_self h)
  rw [decided, if_pos hconnected, hunchoked] at hdecided
  exact not_not.mp (of_decide_eq_false hdecided)

/-- The loop goes on with a cycle: it waits for another send, or all are decided. -/
theorem InCycle.resume (h : InCycle s toUnchoke it)
    (hafter : afterCycle s (applyDecisions toUnchoke s.manager it) = (s', point)) :
    (point = .waiting ∧ UnchokedInterested s'.manager s'.collected) ∨
      ∃ it', point = .sending toUnchoke it' ∧ InCycle s' toUnchoke it' := by
  rcases applyDecisions_cases toUnchoke h.undisturbed with ⟨hall, happly⟩ |
    ⟨addr, r, it', passed, -, hconnected, hpassed, hmem, hit', hsplit, happly⟩
  · rw [happly] at hafter
    obtain ⟨rfl, rfl⟩ := Prod.mk.inj hafter
    refine Or.inl ⟨rfl, fun e he hconnected hunchoked => ?_⟩
    simp only [Dict.entries_mapValues] at he
    obtain ⟨e₀, he₀, rfl⟩ := List.mem_map.mp he
    apply h.interested e₀ he₀ hconnected
    rw [← Dict.behind_append_ahead _ it.position] at he₀
    rcases List.mem_append.mp he₀ with hbehind | hahead
    · exact h.behind e₀ hbehind hconnected hunchoked
    · exact unchoked_of_decided (r := e₀.2) hconnected hunchoked (hall e₀ hahead)
  · rw [happly] at hafter
    obtain ⟨rfl, rfl⟩ := Prod.mk.inj hafter
    refine Or.inr ⟨it', rfl, (Dict.undisturbed_mapValues _).mpr hit', ?_, ?_⟩
    · intro e he hconn hunchoked
      simp only [Dict.modify, Dict.behind_mapValues] at he
      obtain ⟨e₀, he₀, rfl⟩ := List.mem_map.mp he
      by_cases haddr : e₀.1 = addr
      · simp only [if_pos haddr] at hunchoked
        rw [haddr]
        exact not_not.mp (of_decide_eq_false hunchoked)
      · simp only [if_neg haddr] at hconn hunchoked
        rw [hsplit] at he₀
        rcases List.mem_append.mp he₀ with he₀ | he₀
        · exact h.behind e₀ he₀ hconn hunchoked
        · rcases List.mem_append.mp he₀ with he₀ | he₀
          · exact unchoked_of_decided hconn hunchoked (hpassed e₀ he₀)
          · rw [List.mem_singleton.mp he₀] at haddr
            exact absurd rfl haddr
    · intro e he hconn htarget
      simp only [Dict.modify, Dict.entries_mapValues] at he
      obtain ⟨e₀, he₀, rfl⟩ := List.mem_map.mp he
      refine h.interested e₀ he₀ ?_ htarget
      by_cases haddr : e₀.1 = addr
      · simp only [if_pos haddr] at hconn
        exact hconn
      · simp only [if_neg haddr] at hconn
        exact hconn

theorem startCycle_settles {pick : ℕ} (hslots : SlotsInterested s.manager)
    (hstart : startCycle pick s = (s', point)) :
    (point = .waiting ∧ UnchokedInterested s'.manager s'.collected) ∨
      ∃ toUnchoke it, point = .sending toUnchoke it ∧ InCycle s' toUnchoke it := by
  unfold startCycle rechoke at hstart
  rcases beginRechoke_cases pick s.manager with ⟨hnone, hbegin⟩ |
    ⟨-, m', toUnchoke, hbegin, hrates, htargets⟩
  · rw [hbegin] at hstart
    obtain ⟨rfl, rfl⟩ := Prod.mk.inj hstart
    exact Or.inl ⟨rfl, (slotsInterested_of_none hnone).mpr hslots⟩
  · rw [hbegin] at hstart
    let s₀ : Loop := { s with
      manager := m', collectedWakes := s.wakes, collected := interestedAddrs s.manager }
    have hcycle : InCycle s₀ toUnchoke m'.rates.iter := by
      refine ⟨Dict.undisturbed_iter m'.rates, (fun e he => by cases he), ?_⟩
      intro e he hconnected hmem
      have he' : e ∈ s.manager.rates.entries := hrates ▸ he
      exact htargets.mpr hslots e he' hconnected hmem
    have hafter : afterCycle s₀ (applyDecisions toUnchoke s₀.manager m'.rates.iter) =
        (s', point) := by
      rw [← hstart]
      unfold afterCycle
      rfl
    rcases hcycle.resume hafter with hdone | ⟨it, hpoint, hit⟩
    · exact Or.inl hdone
    · exact Or.inr ⟨toUnchoke, it, hpoint, hit⟩

variable {c : Config Loop Proc}

/-- Peers that change, but neither come nor go, do not disturb a cycle. -/
theorem InCycle.client {i : ℕ} {a : Action} (h : InCycle c.shared toUnchoke it)
    (hok : Between c (.act i a)) (hsending : .loop (.sending toUnchoke it) ∈ c.procs)
    (hstep : clientStep a c.shared = some s') : InCycle s' toUnchoke it := by
  cases a with
  | registers compacts addr isConnected => cases hok _ hsending
  | unregisters addr => cases hok _ hsending
  | changes addr r =>
    obtain rfl := Option.some.inj hstep
    refine ⟨(Dict.undisturbed_mapValues _).mpr h.undisturbed, ?_, ?_⟩
    · intro e he hconnected hunchoked
      simp only [Dict.modify, Dict.behind_mapValues] at he
      obtain ⟨e₀, he₀, rfl⟩ := List.mem_map.mp he
      by_cases haddr : e₀.1 = addr
      · simp only [if_pos haddr] at hconnected hunchoked
        obtain ⟨hchoking, hkeeps⟩ := hok e₀ (Dict.mem_entries_of_behind he₀) haddr
        exact h.behind e₀ he₀ (hkeeps hconnected) (hchoking.symm.trans hunchoked)
      · simp only [if_neg haddr] at hconnected hunchoked
        exact h.behind e₀ he₀ hconnected hunchoked
    · intro e he hconnected hmem
      simp only [Dict.modify, Dict.entries_mapValues] at he
      obtain ⟨e₀, he₀, rfl⟩ := List.mem_map.mp he
      by_cases haddr : e₀.1 = addr
      · simp only [if_pos haddr] at hconnected
        exact h.interested e₀ he₀ ((hok e₀ he₀ haddr).2 hconnected) hmem
      · simp only [if_neg haddr] at hconnected
        exact h.interested e₀ he₀ hconnected hmem
  | seeds isSeeding =>
    obtain rfl := Option.some.inj hstep
    exact ⟨h.undisturbed, h.behind, h.interested⟩
  | wakes =>
    obtain rfl := Option.some.inj hstep
    exact ⟨h.undisturbed, h.behind, h.interested⟩
  | _ => cases hstep

theorem running_of_step {a : Action} {p' : Proc}
    (h : program a s (.loop point) = some (s', p')) : Running (.loop point) := by
  cases point with
  | stopped => cases a <;> cases h
  | dead => cases a <;> cases h
  | _ => trivial

/-- A step of the loop that completes a cycle leaves no peer unchoked that was not interested. -/
theorem Settled.loop (h : Settled c) {i : ℕ} {a : Action} {point' : Point}
    (hok : Sound c (.act i a)) (hp : c.procs[i]? = some (.loop point))
    (hturn : Turn a c.shared point s' point') :
    (point' = .waiting → UnchokedInterested s'.manager s'.collected) ∧
      ∀ toUnchoke it, point' = .sending toUnchoke it → InCycle s' toUnchoke it := by
  have hresult : (point' = .waiting ∧ UnchokedInterested s'.manager s'.collected) ∨
      (∃ toUnchoke it, point' = .sending toUnchoke it ∧ InCycle s' toUnchoke it) ∨
      point' ≠ .waiting ∧ ∀ toUnchoke it, point' ≠ .sending toUnchoke it := by
    cases hturn with
    | cycle pick hstarts hstart =>
      have hslots : SlotsInterested c.shared.manager := by
        cases a with
        | rounds stopSet pick => exact hok point hp hstarts
        | _ => cases hstarts
      rcases startCycle_settles hslots hstart with hdone | hsending
      · exact Or.inl hdone
      · exact Or.inr (Or.inl hsending)
    | resumes _ hpoint hafter =>
      have hcycle := h.sending _ _ (hpoint ▸ List.mem_of_getElem? hp)
      rcases hcycle.resume hafter with hdone | ⟨it', hpoint', hit'⟩
      · exact Or.inl hdone
      · exact Or.inr (Or.inl ⟨_, it', hpoint', hit'⟩)
    | idles _ hpoint =>
      refine Or.inr (Or.inr ?_)
      rcases hpoint with rfl | ⟨_, rfl⟩
      · exact ⟨nofun, nofun⟩
      · exact ⟨nofun, nofun⟩
  rcases hresult with ⟨rfl, hdone⟩ | ⟨toUnchoke, it, rfl, hcycle⟩ | ⟨hnot, hnone⟩
  · exact ⟨fun _ => hdone, nofun⟩
  · refine ⟨nofun, fun toUnchoke' it' heq => ?_⟩
    obtain ⟨rfl, rfl⟩ := Point.sending.inj heq
    exact hcycle
  · exact ⟨fun heq => absurd heq hnot, fun toUnchoke it heq => absurd heq (hnone toUnchoke it)⟩

def OneRun (c : Config Loop Proc) : Prop :=
  ∀ (i j : ℕ) p q, c.procs[i]? = some p → c.procs[j]? = some q → Running p → Running q → i = j

theorem oneRun_initial (m : ChokingManager) : OneRun (initial m) := by
  intro i j p q hp hq _ _
  have hlt := (List.getElem?_eq_some_iff.mp hp).1
  have hlt' := (List.getElem?_eq_some_iff.mp hq).1
  simp only [initial, List.length_singleton] at hlt hlt'
  omega

theorem OneRun.others (h : OneRun c) {i : ℕ} {p : Proc} (hp : c.procs[i]? = some p)
    (hrunning : Running p) (j : ℕ) (q : Proc) (hne : j ≠ i) (hq : c.procs[j]? = some q) :
    ¬ Running q :=
  fun hrunningq => hne (h j i q p hq hp hrunningq hrunning)

theorem OneRun.spawn (h : OneRun c) {p : Proc} (hbetween : Between c (.spawn p)) :
    OneRun { c with procs := c.procs ++ [p] } := by
  have hnew : Running p → ∀ q ∈ c.procs, ¬ Running q := by
    intro hrunning
    rcases hbetween with rfl | ⟨-, hover⟩
    · cases hrunning
    · exact hover
  intro i j q r hq hr hqrunning hrrunning
  rcases getElem?_append_cases hq with ⟨rfl, rfl⟩ | hqold
  · rcases getElem?_append_cases hr with ⟨rfl, -⟩ | hrold
    · rfl
    · exact absurd hrrunning (hnew hqrunning r (List.mem_of_getElem? hrold))
  · rcases getElem?_append_cases hr with ⟨rfl, rfl⟩ | hrold
    · exact absurd hqrunning (hnew hrrunning q (List.mem_of_getElem? hqold))
    · exact h i j q r hqold hrold hqrunning hrrunning

theorem OneRun.act (h : OneRun c) {i : ℕ} {a : Action} {p p' : Proc} (hp : c.procs[i]? = some p)
    (hs : program a c.shared p = some (s', p')) : OneRun ⟨s', c.procs.set i p'⟩ := by
  intro j k q r hq hr hqrunning hrrunning
  rcases program_cases hs with ⟨point, point', rfl, rfl, -⟩ | ⟨rfl, rfl, -⟩
  · have hrunning := running_of_step hs
    rcases getElem?_set_cases hq with ⟨rfl, rfl⟩ | ⟨hj, hother⟩
    · rcases getElem?_set_cases hr with ⟨rfl, -⟩ | ⟨hk, hother⟩
      · rfl
      · exact absurd hrrunning (h.others hp hrunning k r hk hother)
    · exact absurd hqrunning (h.others hp hrunning j q hj hother)
  · rcases getElem?_set_cases hq with ⟨rfl, rfl⟩ | ⟨-, hother⟩
    · cases hqrunning
    · rcases getElem?_set_cases hr with ⟨rfl, rfl⟩ | ⟨-, hother'⟩
      · cases hrrunning
      · exact h j k q r hother hother' hqrunning hrrunning

theorem Settled.act (h : Settled c) {i : ℕ} {a : Action} {p p' : Proc}
    (hbetween : Between c (.act i a)) (hsound : Sound c (.act i a)) (hp : c.procs[i]? = some p)
    (hs : program a c.shared p = some (s', p')) : Settled ⟨s', c.procs.set i p'⟩ := by
  have hsingle : OneRun c := h.single
  rcases program_cases hs with ⟨point, point', rfl, rfl, hturn⟩ | ⟨rfl, rfl, hclient⟩
  · constructor
    · exact hsingle.act hp hs
    · intro toUnchoke it hmem
      obtain ⟨j, hj⟩ := List.getElem?_of_mem hmem
      rcases getElem?_set_cases hj with ⟨rfl, heq⟩ | ⟨hne, hother⟩
      · exact (h.loop hsound hp hturn).2 toUnchoke it (Proc.loop.inj heq).symm
      · exact absurd trivial (hsingle.others hp (running_of_step hs) j _ hne hother)
  · constructor
    · exact hsingle.act hp hs
    · intro toUnchoke it hmem
      rcases mem_set_cases hmem with heq | hmem
      · cases heq
      · exact (h.sending toUnchoke it hmem).client hbetween hmem hclient

theorem sound_settled {m₀ : ChokingManager}
    (h : Reach program (fun c m => Between c m ∧ Sound c m) (initial m₀) c) : Settled c := by
  refine h.invariant (I := Settled) ?_ ?_ ?_
  · constructor
    · exact oneRun_initial m₀
    · intro toUnchoke it hmem
      cases List.mem_singleton.mp hmem
  · rintro c p ih ⟨hbetween, -⟩
    constructor
    · exact OneRun.spawn ih.single hbetween
    · intro toUnchoke it hmem
      rcases List.mem_append.mp hmem with hmem | hmem
      · exact ih.sending toUnchoke it hmem
      · rcases hbetween with rfl | ⟨rfl, -⟩
        · cases List.mem_singleton.mp hmem
        · cases List.mem_singleton.mp hmem
  · rintro c i a p s p' ih ⟨hbetween, hsound⟩ hp hs
    exact ih.act hbetween hsound hp hs

/-- In every run whose cycles start with their slots held by interested peers, each completed cycle
leaves only interested peers unchoked. For a cycle during which nothing else happens the condition
is exact. -/
theorem unchoked_interested (m₀ : ChokingManager) :
    (∀ c c' i a, Reach program (fun c m => Between c m ∧ Sound c m) (initial m₀) c →
      Between c (.act i a) → Sound c (.act i a) → apply program c (.act i a) = some c' →
      c'.procs[i]? = some (.loop .waiting) →
      UnchokedInterested c'.shared.manager c'.shared.collected) ∧
    ∀ pick m, (undisturbedCycle pick m).2 = .waiting ∧
      (UnchokedInterested (undisturbedCycle pick m).1 (interestedAddrs m) ↔ SlotsInterested m) := by
  refine ⟨?_, undisturbedCycle_interested⟩
  intro c c' i a hreach hbetween hsound happ hwaiting
  obtain ⟨p, s, p', hp, hs, rfl⟩ := apply_act happ
  obtain ⟨hlt, -⟩ := List.getElem?_eq_some_iff.mp hp
  rw [List.getElem?_set_self hlt] at hwaiting
  obtain rfl := Option.some.inj hwaiting
  rcases program_cases hs with ⟨point, point', rfl, hpoint', hturn⟩ | ⟨-, hclient, -⟩
  · obtain rfl := Proc.loop.inj hpoint'
    exact ((sound_settled hreach).loop hsound hp hturn).1 rfl
  · cases hclient

/-- The first peer loses its interest, and the second becomes interested. -/
def exchanged : List (Move Proc Action) :=
  [.spawn .client, .act 0 (.rounds false 0), .act 0 .returns,
    .act 1 (.changes ⟨[97], 1⟩ ⟨true, 0, 0, false, false⟩),
    .act 1 (.changes ⟨[98], 2⟩ ⟨true, 0, 0, true, true⟩), .act 1 .wakes, .act 0 (.stirs false),
    .act 0 (.rounds false 0), .act 0 .returns]

theorem unchoked_interested_exchanged : ∃ c c',
    run program (initial twoPeers) exchanged = some c ∧
      apply program c (.act 0 .returns) = some c' ∧
      c'.shared.manager.rates.entries = [(⟨[97], 1⟩, ⟨true, 0, 0, true, false⟩),
        (⟨[98], 2⟩, ⟨true, 0, 0, false, true⟩)] ∧
      UnchokedInterested c'.shared.manager c'.shared.collected := by
  obtain ⟨c, c', hrun, happ, hentries, hwaiting, hok⟩ : ∃ c c',
      run program (initial twoPeers) exchanged = some c ∧
        apply program c (.act 0 .returns) = some c' ∧
        c'.shared.manager.rates.entries = [(⟨[97], 1⟩, ⟨true, 0, 0, true, false⟩),
          (⟨[98], 2⟩, ⟨true, 0, 0, false, true⟩)] ∧
        c'.procs[0]? = some (.loop .waiting) ∧
        Allowed program (fun c m => Between c m ∧ Sound c m) (initial twoPeers) exchanged :=
    ⟨_, _, rfl, rfl, by decide +kernel, by decide +kernel, by decide +kernel⟩
  exact ⟨c, c', hrun, happ, hentries, (unchoked_interested twoPeers).1 c c' 0 .returns
    (reach_run hok hrun) trivial trivial happ hwaiting⟩

/-- The only interested peer is unchoked and loses its interest; the next cycle has nobody to
unchoke, and returns at once. -/
theorem uninterested_unchoked : ∃ c,
    run program (initial twoPeers) [.spawn .client, .act 0 (.rounds false 0), .act 0 .returns,
      .act 1 (.changes ⟨[97], 1⟩ ⟨true, 0, 0, false, false⟩), .act 1 .wakes, .act 0 (.stirs false),
      .act 0 (.rounds false 0)] = some c ∧
    Allowed program Between (initial twoPeers) [.spawn .client, .act 0 (.rounds false 0),
      .act 0 .returns, .act 1 (.changes ⟨[97], 1⟩ ⟨true, 0, 0, false, false⟩), .act 1 .wakes,
      .act 0 (.stirs false), .act 0 (.rounds false 0)] ∧
    c.procs[0]? = some (.loop .waiting) ∧
      ¬ UnchokedInterested c.shared.manager c.shared.collected :=
  ⟨_, rfl, by decide +kernel, by decide +kernel, by decide +kernel⟩

end UnchokedPeers
