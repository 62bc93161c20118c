import Aiobt.UnchokedPeers

/-! # What a rechoke cycle decides

Whom a cycle leaves unchoked, what it sends, and how many peers are unchoked over a run. -/
namespace RechokeDecisions

open InterleavedProcesses LiveDict ChokingLoop UnchokedPeers PeerMessages ByteStrings
open RechokeCycles (PeerRates ChokingManager Phase needsMessage applyDecisions rechoke)
open PieceEngine (Address)

variable {toUnchoke : Finset Address} {m : ChokingManager} {it : Iter} {pick : ℕ}

def decisionMessage (toUnchoke : Finset Address) (addr : Address) : Message :=
  if addr ∈ toUnchoke then .unchoke else .choke

/-- The messages of a cycle during which nothing else happens, from where it stands. -/
def messagesFrom (toUnchoke : Finset Address) : ℕ → ChokingManager → Iter → List (Address × Message)
  | 0, _, _ => []
  | n + 1, m, it =>
    match m.rates.seek (needsMessage toUnchoke) it with
    | .yields addr _ it' => (addr, decisionMessage toUnchoke addr) ::
        messagesFrom toUnchoke n (applyDecisions toUnchoke m it).1 it'
    | _ => []

def cycleMessages (pick : ℕ) (m : ChokingManager) : List (Address × Message) :=
  match m.beginRechoke pick with
  | (_, none) => []
  | (m, some toUnchoke) => messagesFrom toUnchoke (m.rates.size + 1) m m.rates.iter

theorem ahead_modify {rates : Dict Address PeerRates} {addr : Address} {r : PeerRates}
    {position position' : ℕ} {passed : List (Address × PeerRates)} {f : PeerRates → PeerRates}
    (hsplit : rates.ahead position = passed ++ (addr, r) :: rates.ahead position') :
    (rates.modify addr f).ahead position' = rates.ahead position' := by
  have hunique : ((rates.behind position ++ (passed ++ (addr, r) :: rates.ahead position')).map
      Prod.fst).Nodup := by
    rw [← hsplit, Dict.behind_append_ahead]
    exact rates.unique
  rw [Dict.modify, Dict.ahead_mapValues]
  conv_rhs => rw [← List.map_id (rates.ahead position')]
  apply List.map_congr_left
  intro e he
  have hne : e.1 ≠ addr := by
    rw [List.map_append, List.map_append, List.map_cons, List.nodup_append] at hunique
    have hnot := (List.nodup_cons.mp (List.nodup_append.mp hunique.2.1).2.1).1
    intro heq
    exact hnot (List.mem_map.mpr ⟨e, he, heq⟩)
  simp only [if_neg hne]
  rfl

theorem messagesFrom_eq (toUnchoke : Finset Address) (n : ℕ) (h : m.rates.Undisturbed it)
    (hn : it.left < n) :
    messagesFrom toUnchoke n m it =
      ((m.rates.ahead it.position).filter fun e => needsMessage toUnchoke e.1 e.2).map fun e =>
        (e.1, decisionMessage toUnchoke e.1) := by
  induction n generalizing m it with
  | zero => omega
  | succ n ih =>
    unfold messagesFrom
    rcases Dict.seek_undisturbed (p := needsMessage toUnchoke) h with ⟨hstops, hall⟩ |
      ⟨addr, r, it', passed, hyields, hit', hleft, hneeds, hpassed, hahead⟩
    · have hnone :
          (m.rates.ahead it.position).filter (fun e => needsMessage toUnchoke e.1 e.2) = [] := by
        rw [List.filter_eq_nil_iff]
        intro e he
        rw [hall e he]
        exact Bool.false_ne_true
      rw [hstops, hnone]
      rfl
    · have hdecide : (applyDecisions toUnchoke m it).1.rates = m.rates.modify addr fun r =>
          { r with amChoking := decide (addr ∉ toUnchoke) } := by
        unfold applyDecisions
        rw [hyields]
      have hstill : (applyDecisions toUnchoke m it).1.rates.Undisturbed it' := by
        rw [hdecide]
        exact (Dict.undisturbed_mapValues _).mpr hit'
      have hnext := ih hstill (by omega)
      have hskip : passed.filter (fun e => needsMessage toUnchoke e.1 e.2) = [] := by
        rw [List.filter_eq_nil_iff]
        intro e he
        rw [hpassed e he]
        exact Bool.false_ne_true
      rw [hyields]
      simp only
      have hfirst : ((addr, r) :: m.rates.ahead it'.position).filter
          (fun e => needsMessage toUnchoke e.1 e.2) =
          (addr, r) :: (m.rates.ahead it'.position).filter fun e => needsMessage toUnchoke e.1 e.2 :=
        List.filter_cons_of_pos hneeds
      rw [hnext, hdecide, ahead_modify hahead, hahead, List.filter_append, hskip, List.nil_append,
        hfirst, List.map_cons]

theorem beginRechoke_some (pick : ℕ) (h : m.interested ≠ []) :
    ∃ m' toUnchoke, m.beginRechoke pick = (m', some toUnchoke) ∧ m'.rates = m.rates ∧
      m'.maxUnchoked = m.maxUnchoked ∧
      ∀ addr, addr ∈ toUnchoke ↔ addr ∈ m.topUnchoked ∨ m'.optimisticAddr = some addr := by
  have hmem : ∀ (m' : ChokingManager) addr,
      addr ∈ m.topUnchoked.toFinset ∪ m'.optimisticAddr.toFinset ↔
        addr ∈ m.topUnchoked ∨ m'.optimisticAddr = some addr := by
    intro m' addr
    rw [Finset.mem_union, List.mem_toFinset, Option.mem_toFinset, Option.mem_def]
  have hsome : m.tick.interested ≠ [] := h
  unfold ChokingManager.beginRechoke
  rw [if_neg hsome]
  by_cases hrotate : m.rotateOptimistic = true
  · simp only [if_pos hrotate]
    exact ⟨_, _, rfl, rfl, rfl, hmem (m.tick.chooseOptimistic pick)⟩
  · simp only [if_neg hrotate]
    exact ⟨_, _, rfl, rfl, rfl, hmem m.tick⟩

/-- The interested connected peers by their counter, the highest first, and those with equal
counters in the order of their registration. -/
structure Ranking (m : ChokingManager) (ranked : List (Address × PeerRates)) : Prop where
  perm : ranked.Perm m.interested
  sorted : ranked.Pairwise fun x y => m.relevantRate y.2 ≤ m.relevantRate x.2
  stable : ∀ x y, [x, y].Sublist m.interested → m.relevantRate y.2 ≤ m.relevantRate x.2 →
    [x, y].Sublist ranked

theorem ranked_ranking (m : ChokingManager) : Ranking m m.ranked := by
  have htotal : Std.Total fun x y : Address × PeerRates => m.relevantRate y.2 ≤ m.relevantRate x.2 :=
    ⟨fun x y => Nat.le_total _ _⟩
  have htrans : IsTrans (Address × PeerRates)
      fun x y => m.relevantRate y.2 ≤ m.relevantRate x.2 :=
    ⟨fun x y z hxy hyz => Nat.le_trans hyz hxy⟩
  constructor
  · exact List.perm_insertionSort _ _
  · exact List.pairwise_insertionSort _ _
  · intro x y hsub hrate
    exact List.pair_sublist_insertionSort hrate hsub

structure Rechoked (m m' : ChokingManager) (sent : List (Address × Message)) : Prop where
  keys : m'.rates.keys = m.rates.keys
  unchoked : ∀ e ∈ m'.rates.entries, e.2.isConnected = true →
    (e.2.amChoking = false ↔ e.1 ∈ m.topUnchoked ∨ m'.optimisticAddr = some e.1)
  once : (sent.map Prod.fst).Nodup
  sent : ∀ addr msg, (addr, msg) ∈ sent ↔
    ∃ r r', (addr, r) ∈ m.rates.entries ∧ (addr, r') ∈ m'.rates.entries ∧
      r'.amChoking ≠ r.amChoking ∧ msg = if r'.amChoking then .choke else .unchoke
  reset : ∀ e ∈ m'.rates.entries, e.2.bytesDownInterval = 0 ∧ e.2.bytesUpInterval = 0

/-- A peer is sent a message exactly where its choking changes. -/
theorem needsMessage_iff {addr : Address} {r : PeerRates} :
    needsMessage toUnchoke addr r = true ↔
      (decided toUnchoke addr r).amChoking ≠ r.amChoking := by
  unfold needsMessage decided
  cases hconnected : r.isConnected with
  | false => simp
  | true =>
    by_cases hmem : addr ∈ toUnchoke
    · cases hchoking : r.amChoking <;> simp [hmem]
    · cases hchoking : r.amChoking <;> simp [hmem]

theorem decisionMessage_eq {addr : Address} {r : PeerRates} (h : needsMessage toUnchoke addr r = true) :
    decisionMessage toUnchoke addr =
      if (decided toUnchoke addr r).amChoking then .choke else .unchoke := by
  have hconnected : r.isConnected = true := (Bool.and_eq_true_iff.mp h).1
  rw [decided, if_pos hconnected, decisionMessage]
  by_cases hmem : addr ∈ toUnchoke
  · simp [hmem]
  · simp [hmem]

def decideAll (toUnchoke : Finset Address) (rates : Dict Address PeerRates) : Dict Address PeerRates :=
  rates.mapValues fun addr r => (decided toUnchoke addr r).resetInterval

theorem mem_decideAll {rates : Dict Address PeerRates} {e : Address × PeerRates}
    (h : e ∈ (decideAll toUnchoke rates).entries) :
    ∃ r, (e.1, r) ∈ rates.entries ∧ e.2 = (decided toUnchoke e.1 r).resetInterval := by
  rw [decideAll, Dict.entries_mapValues] at h
  obtain ⟨e₀, he₀, rfl⟩ := List.mem_map.mp h
  exact ⟨e₀.2, he₀, rfl⟩

theorem decideAll_mem {rates : Dict Address PeerRates} {addr : Address} {r : PeerRates}
    (h : (addr, r) ∈ rates.entries) :
    (addr, (decided toUnchoke addr r).resetInterval) ∈ (decideAll toUnchoke rates).entries := by
  rw [decideAll, Dict.entries_mapValues]
  exact List.mem_map_of_mem h

theorem mem_messages {rates : Dict Address PeerRates} {addr : Address} {msg : Message} :
    (addr, msg) ∈ (rates.entries.filter fun e => needsMessage toUnchoke e.1 e.2).map
        (fun e => (e.1, decisionMessage toUnchoke e.1)) ↔
      ∃ r r', (addr, r) ∈ rates.entries ∧ (addr, r') ∈ (decideAll toUnchoke rates).entries ∧
        r'.amChoking ≠ r.amChoking ∧ msg = if r'.amChoking then .choke else .unchoke := by
  constructor
  · intro h
    obtain ⟨e, he, heq⟩ := List.mem_map.mp h
    obtain ⟨hmem, hneeds⟩ := List.mem_filter.mp he
    obtain ⟨rfl, rfl⟩ := Prod.mk.inj heq
    exact ⟨e.2, _, hmem, decideAll_mem hmem, needsMessage_iff.mp hneeds, decisionMessage_eq hneeds⟩
  · rintro ⟨r, r', hmem, hmem', hchanged, rfl⟩
    obtain ⟨r₀, hr₀, hr'⟩ := mem_decideAll hmem'
    obtain rfl : r₀ = r := (Prod.mk.inj (entry_unique hr₀ hmem rfl)).2
    rw [show r' = (decided toUnchoke addr r₀).resetInterval from hr'] at hchanged ⊢
    have hneeds := needsMessage_iff.mpr hchanged
    refine List.mem_map.mpr ⟨(addr, r₀), List.mem_filter.mpr ⟨hmem, hneeds⟩, ?_⟩
    exact congrArg (Prod.mk addr) (decisionMessage_eq hneeds)

theorem rechoked (pick : ℕ) (h : m.interested ≠ []) :
    (undisturbedCycle pick m).2 = .waiting ∧
      Rechoked m (undisturbedCycle pick m).1 (cycleMessages pick m) := by
  obtain ⟨m', toUnchoke, hbegin, hrates, -, htargets⟩ := beginRechoke_some pick h
  have hfinish := finishCycle_eq toUnchoke (m'.rates.size + 1)
    (Dict.undisturbed_iter m'.rates) (Nat.lt_succ_self _) (fun e he => by cases he)
  have hsent := messagesFrom_eq toUnchoke (m'.rates.size + 1)
    (Dict.undisturbed_iter m'.rates) (Nat.lt_succ_self _)
  rw [hrates] at hfinish hsent
  unfold undisturbedCycle cycleMessages
  rw [hbegin]
  simp only [hrates, hfinish, hsent, true_and]
  constructor
  · show (decideAll toUnchoke m.rates).keys = m.rates.keys
    rw [Dict.keys, decideAll, Dict.entries_mapValues, List.map_map]
    rfl
  · intro e he hconnected
    obtain ⟨r, -, hr⟩ := mem_decideAll he
    have hwas : r.isConnected = true := by
      rw [hr] at hconnected
      unfold decided at hconnected
      split at hconnected
      · next hyes => exact hyes
      · exact hconnected
    rw [← htargets, hr, decided, if_pos hwas]
    simp [PeerRates.resetInterval]
  · rw [List.map_map]
    exact m.rates.unique.sublist (List.filter_sublist.map Prod.fst)
  · exact fun addr msg => mem_messages
  · intro e he
    obtain ⟨r, -, hr⟩ := mem_decideAll he
    rw [hr]
    exact ⟨rfl, rfl⟩

def unchoked (m : ChokingManager) : ℕ :=
  m.rates.entries.countP fun e => e.2.isConnected && !e.2.amChoking

theorem unchoked_le_card (h : ∀ e ∈ m.rates.entries, e.2.isConnected = true →
    e.2.amChoking = false → e.1 ∈ toUnchoke) : unchoked m ≤ toUnchoke.card := by
  have hunique : ((m.rates.entries.filter fun e => e.2.isConnected && !e.2.amChoking).map
      Prod.fst).Nodup := m.rates.unique.sublist (List.filter_sublist.map Prod.fst)
  have hsub : ((m.rates.entries.filter fun e => e.2.isConnected && !e.2.amChoking).map
      Prod.fst).toFinset ⊆ toUnchoke := by
    intro addr haddr
    obtain ⟨e, he, rfl⟩ := List.mem_map.mp (List.mem_toFinset.mp haddr)
    obtain ⟨hmem, hboth⟩ := List.mem_filter.mp he
    obtain ⟨hconnected, hchoking⟩ := Bool.and_eq_true_iff.mp hboth
    exact h e hmem hconnected (by simpa using hchoking)
  have hcard := Finset.card_le_card hsub
  rw [List.toFinset_card_of_nodup hunique, List.length_map] at hcard
  rw [unchoked, List.countP_eq_length_filter]
  exact hcard

theorem unchoked_mapValues {f : Address → PeerRates → PeerRates} {m' : ChokingManager}
    (hrates : m'.rates = m.rates.mapValues f)
    (h : ∀ e ∈ m.rates.entries, (f e.1 e.2).isConnected = true → (f e.1 e.2).amChoking = false →
      e.2.isConnected = true ∧ e.2.amChoking = false) : unchoked m' ≤ unchoked m := by
  rw [unchoked, hrates, Dict.entries_mapValues, List.countP_map]
  apply List.countP_mono_left
  intro e he hboth
  obtain ⟨hconnected, hchoking⟩ := Bool.and_eq_true_iff.mp hboth
  obtain ⟨hwas, hwas'⟩ := h e he hconnected (by simpa using hchoking)
  rw [hwas, hwas']
  rfl

theorem unchoked_register (compacts : Bool) (addr : Address) (isConnected : Bool) :
    unchoked (m.register compacts addr isConnected) ≤ unchoked m := by
  by_cases hmem : addr ∈ m.rates.keys
  · refine unchoked_mapValues (Dict.set_of_mem compacts hmem) fun e _ => ?_
    by_cases haddr : e.1 = addr
    · simp only [if_pos haddr]
      intro _ hchoking
      cases hchoking
    · simp only [if_neg haddr]
      exact fun hconnected hchoking => ⟨hconnected, hchoking⟩
  · rw [unchoked, ChokingManager.register]
    simp only
    rw [Dict.entries_set_of_not_mem compacts hmem, List.countP_append]
    simp [unchoked, PeerRates.new]

theorem unchoked_unregister (addr : Address) : unchoked (m.unregister addr) ≤ unchoked m := by
  rw [unchoked, ChokingManager.unregister]
  simp only
  rw [Dict.entries_pop]
  exact List.filter_sublist.countP_le

theorem take_sliceBound {α : Type} {xs : List α} {n : ℤ} (hn : 0 ≤ n) :
    xs.take (sliceBound xs.length n) = xs.take n.toNat := by
  rw [sliceBound]
  split
  · omega
  · exact List.take_eq_take_iff.mpr (by omega)

theorem beginRechoke_card {m' : ChokingManager} (hmax : 0 ≤ m.maxUnchoked)
    (htargets : ∀ addr, addr ∈ toUnchoke ↔ addr ∈ m.topUnchoked ∨ m'.optimisticAddr = some addr) :
    (toUnchoke.card : ℤ) ≤ m.maxUnchoked + 1 := by
  have hsub : toUnchoke ⊆ m.topUnchoked.toFinset ∪ m'.optimisticAddr.toFinset := by
    intro addr haddr
    rw [Finset.mem_union, List.mem_toFinset, Option.mem_toFinset, Option.mem_def]
    exact (htargets addr).mp haddr
  have htop : m.topUnchoked.length ≤ m.maxUnchoked.toNat := by
    rw [ChokingManager.topUnchoked, List.length_map, List.length_take, sliceBound]
    split <;> omega
  have hcard := (Finset.card_le_card hsub).trans (Finset.card_union_le _ _)
  have hlist := List.toFinset_card_le m.topUnchoked
  have hone : m'.optimisticAddr.toFinset.card ≤ 1 := by
    cases m'.optimisticAddr with
    | none => simp
    | some addr => simp
  omega

/-- Peers come and go between the cycles, and no cycle is cut short. -/
def Sequential (c : Config Loop Proc) : Move Proc Action → Prop
  | .act i .cancelled => ∀ p, c.procs[i]? = some p → p.isSending = false
  | m => Between c m

instance (c : Config Loop Proc) : (m : Move Proc Action) → Decidable (Sequential c m)
  | .spawn p => inferInstanceAs (Decidable (Between c (.spawn p)))
  | .act i .cancelled => match h : c.procs[i]? with
    | some p => decidable_of_iff (p.isSending = false) (by simp [Sequential, h])
    | none => .isTrue (by simp [Sequential, h])
  | .act i (.registers compacts addr isConnected) =>
    inferInstanceAs (Decidable (Between c (.act i (.registers compacts addr isConnected))))
  | .act i (.unregisters addr) => inferInstanceAs (Decidable (Between c (.act i (.unregisters addr))))
  | .act i (.changes addr r) => inferInstanceAs (Decidable (Between c (.act i (.changes addr r))))
  | .act _ (.rounds _ _) => .isTrue trivial
  | .act _ .returns => .isTrue trivial
  | .act _ (.stirs _) => .isTrue trivial
  | .act _ (.seeds _) => .isTrue trivial
  | .act _ .wakes => .isTrue trivial

theorem Sequential.between {c : Config Loop Proc} {m : Move Proc Action} (h : Sequential c m) :
    Between c m := by
  cases m with
  | spawn p => exact h
  | act i a =>
    cases a with
    | cancelled => exact trivial
    | _ => exact h

def newManager (maxUnchoked : ℤ) (optimisticEvery : ℕ) : ChokingManager where
  maxUnchoked := maxUnchoked
  optimisticEvery := optimisticEvery
  rates := ⟨[], List.nodup_nil⟩
  optimisticAddr := none
  ticksSinceOptimistic := 0
  isSeeding := false

/-- The loop with the targets of its cycle in place of the interested peers. -/
def against (s : Loop) (toUnchoke : Finset Address) : Loop := { s with collected := toUnchoke }

theorem afterCycle_against {s s' : Loop} {next : ChokingManager × Phase} {point : Point}
    (h : afterCycle s next = (s', point)) :
    afterCycle (against s toUnchoke) next = (against s' toUnchoke, point) := by
  obtain ⟨m, phase⟩ := next
  cases phase <;>
  · obtain ⟨rfl, rfl⟩ := Prod.mk.inj h
    rfl

structure Bounded (max : ℤ) (c : Config Loop Proc) : Prop where
  oneRun : OneRun c
  maximum : c.shared.manager.maxUnchoked = max
  sending : ∀ toUnchoke it, .loop (.sending toUnchoke it) ∈ c.procs →
    InCycle (against c.shared toUnchoke) toUnchoke it ∧ (toUnchoke.card : ℤ) ≤ max + 1
  idle : (∀ p ∈ c.procs, p.isSending = false) → (unchoked c.shared.manager : ℤ) ≤ max + 1

variable {s s' : Loop} {point point' : Point} {a : Action} {c : Config Loop Proc} {max : ℤ}

theorem afterCycle_maxUnchoked {next : ChokingManager × Phase}
    (h : afterCycle s next = (s', point)) : s'.manager.maxUnchoked = next.1.maxUnchoked := by
  rcases afterCycle_cases h with ⟨-, -, rfl⟩ | ⟨-, rfl, -⟩
  · rfl
  · rfl

theorem applyDecisions_maxUnchoked : (applyDecisions toUnchoke m it).1.maxUnchoked = m.maxUnchoked := by
  unfold applyDecisions
  split
  · rfl
  · rfl
  · rfl

theorem not_sending {p : Proc} (h : ¬ Running p) : p.isSending = false := by
  cases p with
  | client => rfl
  | loop point =>
    cases point with
    | sending toUnchoke it => exact absurd trivial h
    | _ => rfl

/-- A cycle that goes on waits for its next send, or has left its targets unchoked. -/
theorem resume_bounded (h : InCycle (against s toUnchoke) toUnchoke it)
    (hafter : afterCycle s (applyDecisions toUnchoke s.manager it) = (s', point')) :
    (point' = .waiting ∧ unchoked s'.manager ≤ toUnchoke.card) ∨
      ∃ it', point' = .sending toUnchoke it' ∧ InCycle (against s' toUnchoke) toUnchoke it' := by
  rcases h.resume (afterCycle_against hafter) with ⟨hpoint, hunchoked⟩ | hsending
  · exact Or.inl ⟨hpoint, unchoked_le_card hunchoked⟩
  · exact Or.inr hsending

theorem start_bounded {pick : ℕ} (hmax : 0 ≤ s.manager.maxUnchoked)
    (hidle : (unchoked s.manager : ℤ) ≤ s.manager.maxUnchoked + 1)
    (hstart : startCycle pick s = (s', point')) :
    s'.manager.maxUnchoked = s.manager.maxUnchoked ∧
      ((point' = .waiting ∧ (unchoked s'.manager : ℤ) ≤ s.manager.maxUnchoked + 1) ∨
        ∃ toUnchoke it, point' = .sending toUnchoke it ∧
          InCycle (against s' toUnchoke) toUnchoke it ∧
          (toUnchoke.card : ℤ) ≤ s.manager.maxUnchoked + 1) := by
  unfold startCycle rechoke at hstart
  by_cases hnone : s.manager.interested = []
  · rw [ChokingManager.beginRechoke, if_pos (show s.manager.tick.interested = [] from hnone)] at hstart
    obtain ⟨rfl, rfl⟩ := Prod.mk.inj hstart
    exact ⟨rfl, Or.inl ⟨rfl, hidle⟩⟩
  · obtain ⟨m', toUnchoke, hbegin, hrates, hkept, htargets⟩ := beginRechoke_some pick hnone
    rw [hbegin] at hstart
    have hcard := beginRechoke_card hmax htargets
    let s₀ : Loop := { s with
      manager := m', collectedWakes := s.wakes, collected := interestedAddrs s.manager }
    have hafter : afterCycle s₀ (applyDecisions toUnchoke s₀.manager m'.rates.iter) =
        (s', point') := by
      rw [← hstart]
      unfold afterCycle
      rfl
    have hcycle : InCycle (against s₀ toUnchoke) toUnchoke m'.rates.iter :=
      ⟨Dict.undisturbed_iter m'.rates, (fun e he => by cases he), fun _ _ _ hmem => hmem⟩
    refine ⟨?_, ?_⟩
    · rw [afterCycle_maxUnchoked hafter, applyDecisions_maxUnchoked]
      exact hkept
    · rcases resume_bounded hcycle hafter with ⟨hpoint, hunchoked⟩ | ⟨it, hpoint, hit⟩
      · exact Or.inl ⟨hpoint, by omega⟩
      · exact Or.inr ⟨toUnchoke, it, hpoint, hit, hcard⟩

inductive Left (max : ℤ) (s' : Loop) (point' : Point) : Prop
  | idle : Proc.isSending (.loop point') = false → (unchoked s'.manager : ℤ) ≤ max + 1 →
      Left max s' point'
  | sending (toUnchoke : Finset Address) (it : Iter) : point' = .sending toUnchoke it →
      InCycle (against s' toUnchoke) toUnchoke it → (toUnchoke.card : ℤ) ≤ max + 1 →
      Left max s' point'

theorem turn_left (hmax : 0 ≤ max) (hkept : s.manager.maxUnchoked = max)
    (hsending : ∀ toUnchoke it, point = .sending toUnchoke it →
      InCycle (against s toUnchoke) toUnchoke it ∧ (toUnchoke.card : ℤ) ≤ max + 1)
    (hidle : Proc.isSending (.loop point) = false → (unchoked s.manager : ℤ) ≤ max + 1)
    (hcut : a = .cancelled → Proc.isSending (.loop point) = false)
    (hstep : loopStep a s point = some (s', point')) :
    s'.manager.maxUnchoked = max ∧ Left max s' point' := by
  subst hkept
  cases turn_of_step hstep with
  | cycle pick hstarts hstart =>
    have hnot : Proc.isSending (.loop point) = false := by
      cases point with
      | sending toUnchoke it => cases a <;> cases hstarts
      | _ => rfl
    obtain ⟨hsame, hcases⟩ := start_bounded hmax (hidle hnot) hstart
    refine ⟨hsame, ?_⟩
    rcases hcases with ⟨rfl, hcount⟩ | ⟨toUnchoke, it, hpoint, hcycle, hcard⟩
    · exact .idle rfl hcount
    · exact .sending toUnchoke it hpoint hcycle hcard
  | @resumes toUnchoke it _ hpoint hafter =>
    obtain ⟨hcycle, hcard⟩ := hsending toUnchoke it hpoint
    refine ⟨?_, ?_⟩
    · rw [afterCycle_maxUnchoked hafter, applyDecisions_maxUnchoked]
    · rcases resume_bounded hcycle hafter with ⟨rfl, hunchoked⟩ | ⟨it', hpoint', hit⟩
      · exact .idle rfl (by omega)
      · exact .sending toUnchoke it' hpoint' hit hcard
  | idles hsame hpoint' =>
    subst hsame
    have hnot : Proc.isSending (.loop point) = false := by
      cases point with
      | sending toUnchoke it =>
        cases a with
        | cancelled => exact hcut rfl
        | returns =>
          rcases resume_bounded (hsending toUnchoke it rfl).1 (Option.some.inj hstep) with
            ⟨rfl, -⟩ | ⟨it', rfl, -⟩
          · rcases hpoint' with hno | ⟨_, hno⟩ <;> cases hno
          · rcases hpoint' with hno | ⟨_, hno⟩ <;> cases hno
        | _ => cases hstep
      | _ => rfl
    refine ⟨rfl, .idle ?_ (hidle hnot)⟩
    rcases hpoint' with rfl | ⟨_, rfl⟩
    · rfl
    · rfl

theorem clientStep_against (h : clientStep a s = some s') :
    clientStep a (against s toUnchoke) = some (against s' toUnchoke) := by
  cases a with
  | registers | unregisters | changes | seeds | wakes =>
    obtain rfl := Option.some.inj h
    rfl
  | _ => cases h

/-- Between cycles peers come, go and change without being unchoked. -/
theorem client_bounded {i : ℕ} (hok : Between c (.act i a))
    (hstep : clientStep a c.shared = some s') :
    s'.manager.maxUnchoked = c.shared.manager.maxUnchoked ∧
      unchoked s'.manager ≤ unchoked c.shared.manager := by
  cases a with
  | registers compacts addr isConnected =>
    obtain rfl := Option.some.inj hstep
    exact ⟨rfl, unchoked_register compacts addr isConnected⟩
  | unregisters addr =>
    obtain rfl := Option.some.inj hstep
    exact ⟨rfl, unchoked_unregister addr⟩
  | changes addr r =>
    obtain rfl := Option.some.inj hstep
    have hrates : (c.shared.manager.rates.modify addr fun _ => r) =
        c.shared.manager.rates.mapValues fun k v => if k = addr then r else v := rfl
    refine ⟨rfl, unchoked_mapValues hrates fun e he => ?_⟩
    by_cases haddr : e.1 = addr
    · simp only [if_pos haddr]
      obtain ⟨hchoking, hconnected⟩ := hok e he haddr
      exact fun h h' => ⟨hconnected h, hchoking.symm.trans h'⟩
    · simp only [if_neg haddr]
      exact fun h h' => ⟨h, h'⟩
  | seeds isSeeding =>
    obtain rfl := Option.some.inj hstep
    exact ⟨rfl, Nat.le_refl _⟩
  | wakes =>
    obtain rfl := Option.some.inj hstep
    exact ⟨rfl, Nat.le_refl _⟩
  | _ => cases hstep

theorem Bounded.loop {i : ℕ} (h : Bounded max c) (hmax : 0 ≤ max)
    (hok : Sequential c (.act i a)) (hp : c.procs[i]? = some (.loop point))
    (hstep : loopStep a c.shared point = some (s', point')) :
    s'.manager.maxUnchoked = max ∧ Left max s' point' := by
  have hrunning : Running (.loop point) :=
    running_of_step (show program a c.shared (.loop point) = some (s', .loop point') by
      rw [program, hstep]
      rfl)
  refine turn_left hmax h.maximum
    (fun toUnchoke it hpoint => h.sending toUnchoke it (hpoint ▸ List.mem_of_getElem? hp))
    (fun hnot => h.idle fun q hq => ?_) (fun hcancelled => ?_) hstep
  · obtain ⟨j, hj⟩ := List.getElem?_of_mem hq
    by_cases hji : j = i
    · subst hji
      obtain rfl := Option.some.inj (hj.symm.trans hp)
      exact hnot
    · exact not_sending (h.oneRun.others hp hrunning j q hji hj)
  · subst hcancelled
    exact hok _ hp

theorem Bounded.act {i : ℕ} {p p' : Proc} (h : Bounded max c) (hmax : 0 ≤ max)
    (hok : Sequential c (.act i a)) (hp : c.procs[i]? = some p)
    (hs : program a c.shared p = some (s', p')) : Bounded max ⟨s', c.procs.set i p'⟩ := by
  have hone := h.oneRun.act hp hs
  have hi := (List.getElem?_eq_some_iff.mp hp).1
  cases p with
  | loop point =>
    have hrunning := running_of_step hs
    obtain ⟨⟨next, point'⟩, hstep, heq⟩ := Option.map_eq_some_iff.mp hs
    obtain ⟨rfl, rfl⟩ := Prod.mk.inj heq
    obtain ⟨hkept, hleft⟩ := h.loop hmax hok hp hstep
    have hsends : ∀ toUnchoke it,
        .loop (.sending toUnchoke it) ∈ c.procs.set i (.loop point') →
          point' = .sending toUnchoke it := by
      intro toUnchoke it hmem
      obtain ⟨j, hj⟩ := List.getElem?_of_mem hmem
      rcases getElem?_set_cases hj with ⟨-, heq⟩ | ⟨hne, hother⟩
      · exact (Proc.loop.inj heq).symm
      · exact absurd trivial (h.oneRun.others hp hrunning j _ hne hother)
    cases hleft with
    | idle hnot hcount =>
      refine ⟨hone, hkept, fun toUnchoke it hmem => ?_, fun _ => hcount⟩
      rw [hsends toUnchoke it hmem] at hnot
      cases hnot
    | sending toUnchoke it hpoint hcycle hcard =>
      subst hpoint
      refine ⟨hone, hkept, fun toUnchoke' it' hmem => ?_, fun hnone => ?_⟩
      · obtain ⟨rfl, rfl⟩ := Point.sending.inj (hsends toUnchoke' it' hmem)
        exact ⟨hcycle, hcard⟩
      · cases hnone _ (List.mem_set hi _)
  | client =>
    obtain ⟨next, hstep, heq⟩ := Option.map_eq_some_iff.mp hs
    obtain ⟨rfl, rfl⟩ := Prod.mk.inj heq
    obtain ⟨hkept, hcount⟩ := client_bounded hok.between hstep
    have hsame : c.procs.set i .client = c.procs := by
      rw [← (List.getElem?_eq_some_iff.mp hp).2]
      exact List.set_getElem_self hi
    rw [hsame] at hone ⊢
    refine ⟨hone, hkept.trans h.maximum, fun toUnchoke it hmem => ?_, fun hnone => ?_⟩
    · obtain ⟨hcycle, hcard⟩ := h.sending toUnchoke it hmem
      have hagainst := hcycle.client (c := ⟨against c.shared toUnchoke, c.procs⟩) hok.between hmem
        (clientStep_against hstep)
      exact ⟨hagainst, hcard⟩
    · have hidle := h.idle hnone
      show (unchoked next.manager : ℤ) ≤ max + 1
      omega

theorem sequential_bounded {optimisticEvery : ℕ} (hmax : 0 ≤ max)
    (h : Reach program Sequential (initial (newManager max optimisticEvery)) c) : Bounded max c := by
  refine h.invariant (I := Bounded max) ?_ ?_ ?_
  · refine ⟨oneRun_initial _, rfl, fun toUnchoke it hmem => ?_, fun _ => ?_⟩
    · cases List.mem_singleton.mp hmem
    · show ((0 : ℕ) : ℤ) ≤ max + 1
      omega
  · intro c p ih hok
    refine ⟨ih.oneRun.spawn hok, ih.maximum, fun toUnchoke it hmem => ?_, fun hnone => ?_⟩
    · rcases List.mem_append.mp hmem with hmem | hmem
      · exact ih.sending toUnchoke it hmem
      · obtain rfl := List.mem_singleton.mp hmem
        rcases hok with hno | ⟨hno, -⟩
        · cases hno
        · cases hno
    · exact ih.idle fun q hq => hnone q (List.mem_append_left _ hq)
  · intro c i a p s p' ih hok hp hs
    exact ih.act hmax hok hp hs

/-- A cycle alone unchokes the first of the ranking and the optimistic peer, and tells whom it
changes. In every run of a manager with at least no slots, a completed cycle leaves at most one peer
more than there are slots unchoked. -/
theorem rechoke_decides :
    (∀ pick m, m.interested ≠ [] →
      ∃ ranked, Ranking m ranked ∧
        m.topUnchoked = (ranked.take (sliceBound ranked.length m.maxUnchoked)).map Prod.fst ∧
        (0 ≤ m.maxUnchoked →
          m.topUnchoked = (ranked.take m.maxUnchoked.toNat).map Prod.fst) ∧
        (undisturbedCycle pick m).2 = .waiting ∧
        Rechoked m (undisturbedCycle pick m).1 (cycleMessages pick m)) ∧
    ∀ (max : ℤ) optimisticEvery c c' i a, 0 ≤ max →
      Reach program Sequential (initial (newManager max optimisticEvery)) c →
      Sequential c (.act i a) → apply program c (.act i a) = some c' →
      c'.procs[i]? = some (.loop .waiting) →
      (unchoked c'.shared.manager : ℤ) ≤ max + 1 := by
  constructor
  · intro pick m hinterested
    refine ⟨m.ranked, ranked_ranking m, rfl, fun hmax => ?_, rechoked pick hinterested⟩
    rw [ChokingManager.topUnchoked, take_sliceBound hmax]
  · intro max optimisticEvery c c' i a hmax hreach hok happ hwaiting
    have hbounded := sequential_bounded hmax (.next _ hreach hok happ)
    have hrunning : Running (.loop .waiting) := trivial
    refine hbounded.idle fun q hq => ?_
    obtain ⟨j, hj⟩ := List.getElem?_of_mem hq
    by_cases hji : j = i
    · subst hji
      obtain rfl := Option.some.inj (hj.symm.trans hwaiting)
      rfl
    · exact not_sending (hbounded.oneRun.others hwaiting hrunning j q hji hj)

def threeInterested : List (Move Proc Action) :=
  [.spawn .client, .act 1 (.registers false ⟨[97], 1⟩ true),
    .act 1 (.changes ⟨[97], 1⟩ ⟨true, 5, 0, true, true⟩), .act 1 (.registers false ⟨[98], 2⟩ true),
    .act 1 (.changes ⟨[98], 2⟩ ⟨true, 9, 0, true, true⟩), .act 1 (.registers false ⟨[99], 3⟩ true),
    .act 1 (.changes ⟨[99], 3⟩ ⟨true, 9, 0, true, true⟩), .act 0 (.rounds false 0)]

theorem rechoke_decides_threeInterested : ∃ c c',
    run program (initial (newManager 1 1)) (threeInterested ++ [.act 0 .returns]) = some c ∧
      apply program c (.act 0 .returns) = some c' ∧
      c'.shared.manager.rates.entries = [(⟨[97], 1⟩, ⟨true, 0, 0, true, true⟩),
        (⟨[98], 2⟩, ⟨true, 0, 0, false, true⟩), (⟨[99], 3⟩, ⟨true, 0, 0, false, true⟩)] ∧
      (unchoked c'.shared.manager : ℤ) ≤ 1 + 1 := by
  obtain ⟨c, c', hrun, happ, hentries, hwaiting, hok⟩ : ∃ c c',
      run program (initial (newManager 1 1)) (threeInterested ++ [.act 0 .returns]) = some c ∧
        apply program c (.act 0 .returns) = some c' ∧
        c'.shared.manager.rates.entries = [(⟨[97], 1⟩, ⟨true, 0, 0, true, true⟩),
          (⟨[98], 2⟩, ⟨true, 0, 0, false, true⟩), (⟨[99], 3⟩, ⟨true, 0, 0, false, true⟩)] ∧
        c'.procs[0]? = some (.loop .waiting) ∧
        Allowed program Sequential (initial (newManager 1 1))
          (threeInterested ++ [.act 0 .returns]) :=
    ⟨_, _, rfl, rfl, by decide +kernel, by decide +kernel, by decide +kernel⟩
  exact ⟨c, c', hrun, happ, hentries, rechoke_decides.2 1 1 c c' 0 .returns (by decide)
    (reach_run hok hrun) trivial happ hwaiting⟩

/-- With `max_unchoked=-1` the slice holds all but the last of the ranking. -/
theorem negative_slots_unchoke : ∃ c,
    run program (initial (newManager (-1) 3))
        (threeInterested ++ [.act 0 .returns, .act 0 .returns]) = some c ∧
      Allowed program Sequential (initial (newManager (-1) 3))
        (threeInterested ++ [.act 0 .returns, .act 0 .returns]) ∧
      c.procs[0]? = some (.loop .waiting) ∧
      unchoked c.shared.manager = 2 ∧ ¬ (unchoked c.shared.manager : ℤ) ≤ -1 + 1 :=
  ⟨_, rfl, by decide +kernel, by decide +kernel, by decide +kernel, by decide +kernel⟩

end RechokeDecisions
