import Aiobt.RechokeCycles

/-! # The choking loop

`ChokingManager.run` with its wake event. What was woken for and who was interested is recorded
beside the manager, at the time when a cycle collects the interested peers. -/
namespace ChokingLoop

open InterleavedProcesses LiveDict RechokeCycles
open PieceEngine (Address)

structure Loop where
  manager : ChokingManager
  wakeEvent : Bool
  wakes : ℕ
  /-- The number of them before the last cycle collected the interested peers. -/
  collectedWakes : ℕ
  collected : Finset Address

inductive Point where
  | starting
  | sending (toUnchoke : Finset Address) (it : Iter)
  /-- For the first of its wake, stop and timer tasks. -/
  | waiting
  | gathering (stopDone : Bool)
  | stopped
  | dead
  deriving DecidableEq

inductive Proc where
  | loop (point : Point)
  | client
  deriving DecidableEq

inductive Action where
  /-- The call goes on to `while not stop_event.is_set()`. -/
  | rounds (stopSet : Bool) (pick : ℕ)
  /-- `send_message` returns, or raises `ConnectionError` or `OSError`. -/
  | returns
  | stirs (stopDone : Bool)
  | cancelled
  | registers (compacts : Bool) (addr : Address) (isConnected : Bool)
  | unregisters (addr : Address)
  | changes (addr : Address) (r : PeerRates)
  | seeds (isSeeding : Bool)
  | wakes

def interestedAddrs (m : ChokingManager) : Finset Address :=
  ((m.rates.entries.filter fun e => e.2.peerInterested).map Prod.fst).toFinset

/-- A cycle has come to its next await; a completed one clears the wake event. -/
def afterCycle (s : Loop) : ChokingManager × Phase → Loop × Point
  | (m, .waiting) => ({ s with manager := m, wakeEvent := false }, .waiting)
  | (m, .sending toUnchoke it) => ({ s with manager := m }, .sending toUnchoke it)
  | (m, .stopped) => ({ s with manager := m }, .stopped)
  | (m, .dead) => ({ s with manager := m }, .dead)

def startCycle (pick : ℕ) (s : Loop) : Loop × Point :=
  afterCycle { s with collectedWakes := s.wakes, collected := interestedAddrs s.manager }
    (rechoke pick s.manager)

def round (stops : Bool) (pick : ℕ) (s : Loop) : Loop × Point :=
  if stops then (s, .stopped) else startCycle pick s

def loopStep : Action → Loop → Point → Option (Loop × Point)
  | .rounds stopSet pick, s, .starting => some (round stopSet pick s)
  | .rounds stopSet pick, s, .gathering stopDone => some (round (stopDone || stopSet) pick s)
  | .returns, s, .sending toUnchoke it => some (afterCycle s (applyDecisions toUnchoke s.manager it))
  | .stirs stopDone, s, .waiting => some (s, .gathering stopDone)
  | .cancelled, s, .starting => some (s, .stopped)
  | .cancelled, s, .sending _ _ => some (s, .stopped)
  | .cancelled, s, .waiting => some (s, .stopped)
  | .cancelled, s, .gathering _ => some (s, .stopped)
  | _, _, _ => none

def clientStep : Action → Loop → Option Loop
  | .registers compacts addr isConnected, s =>
    some { s with manager := s.manager.register compacts addr isConnected }
  | .unregisters addr, s => some { s with manager := s.manager.unregister addr }
  | .changes addr r, s =>
    some { s with manager := { s.manager with rates := s.manager.rates.modify addr fun _ => r } }
  | .seeds isSeeding, s => some { s with manager := { s.manager with isSeeding := isSeeding } }
  | .wakes, s => some { s with wakeEvent := true, wakes := s.wakes + 1 }
  | _, _ => none

def program : Program Loop Proc Action
  | a, s, .loop point => (loopStep a s point).map fun next => (next.1, .loop next.2)
  | a, s, .client => (clientStep a s).map fun next => (next, .client)

def startsCycle : Action → Point → Bool
  | .rounds stopSet _, .starting => !stopSet
  | .rounds stopSet _, .gathering stopDone => !(stopDone || stopSet)
  | _, _ => false

inductive Turn (a : Action) (s : Loop) (point : Point) (s' : Loop) (point' : Point) : Prop
  | cycle (pick : ℕ) : startsCycle a point = true → startCycle pick s = (s', point') →
      Turn a s point s' point'
  | resumes {toUnchoke it} : a = .returns → point = .sending toUnchoke it →
      afterCycle s (applyDecisions toUnchoke s.manager it) = (s', point') →
      Turn a s point s' point'
  | idles : s' = s → (point' = .stopped ∨ ∃ stopDone, point' = .gathering stopDone) →
      Turn a s point s' point'

theorem turn_of_round {a : Action} {stops : Bool} {pick : ℕ} {s s' : Loop} {point point' : Point}
    (hstops : startsCycle a point = !stops) (h : round stops pick s = (s', point')) :
    Turn a s point s' point' := by
  cases stops with
  | true =>
    obtain ⟨rfl, rfl⟩ := Prod.mk.inj h
    exact .idles rfl (Or.inl rfl)
  | false => exact .cycle pick hstops h

theorem turn_of_step {a : Action} {s s' : Loop} {point point' : Point}
    (h : loopStep a s point = some (s', point')) : Turn a s point s' point' := by
  have hstopped : some (s, Point.stopped) = some (s', point') → Turn a s point s' point' := by
    intro heq
    obtain ⟨rfl, rfl⟩ := Prod.mk.inj (Option.some.inj heq)
    exact .idles rfl (Or.inl rfl)
  unfold loopStep at h
  split at h
  · exact turn_of_round (by simp [startsCycle]) (Option.some.inj h)
  · exact turn_of_round (by simp [startsCycle]) (Option.some.inj h)
  · exact .resumes rfl rfl (Option.some.inj h)
  · next stopDone =>
    obtain ⟨rfl, rfl⟩ := Prod.mk.inj (Option.some.inj h)
    exact .idles rfl (Or.inr ⟨stopDone, rfl⟩)
  all_goals first | exact hstopped h | cases h

/-- A step of a call of `run`, or of another user of the manager. -/
theorem program_cases {a : Action} {s s' : Loop} {p p' : Proc}
    (h : program a s p = some (s', p')) :
    (∃ point point', p = .loop point ∧ p' = .loop point' ∧ Turn a s point s' point') ∨
      p = .client ∧ p' = .client ∧ clientStep a s = some s' := by
  cases p with
  | loop point =>
    obtain ⟨⟨s₁, point₁⟩, hstep, heq⟩ := Option.map_eq_some_iff.mp h
    obtain ⟨rfl, rfl⟩ := Prod.mk.inj heq
    exact Or.inl ⟨point, point₁, rfl, rfl, turn_of_step hstep⟩
  | client =>
    obtain ⟨s₁, hstep, heq⟩ := Option.map_eq_some_iff.mp h
    obtain ⟨rfl, rfl⟩ := Prod.mk.inj heq
    exact Or.inr ⟨rfl, rfl, hstep⟩

theorem afterCycle_cases {s s' : Loop} {next : ChokingManager × Phase} {point : Point}
    (h : afterCycle s next = (s', point)) :
    (next.2 = .waiting ∧ point = .waiting ∧
        s' = { s with manager := next.1, wakeEvent := false }) ∨
      (point ≠ .waiting ∧ s' = { s with manager := next.1 } ∧
        ∀ toUnchoke it, point = .sending toUnchoke it → next.2 = .sending toUnchoke it) := by
  obtain ⟨m, phase⟩ := next
  cases phase with
  | waiting =>
    obtain ⟨rfl, rfl⟩ := Prod.mk.inj h
    exact Or.inl ⟨rfl, rfl, rfl⟩
  | sending toUnchoke it =>
    obtain ⟨rfl, rfl⟩ := Prod.mk.inj h
    refine Or.inr ⟨nofun, rfl, fun _ _ heq => ?_⟩
    cases heq
    rfl
  | stopped =>
    obtain ⟨rfl, rfl⟩ := Prod.mk.inj h
    exact Or.inr ⟨nofun, rfl, nofun⟩
  | dead =>
    obtain ⟨rfl, rfl⟩ := Prod.mk.inj h
    exact Or.inr ⟨nofun, rfl, nofun⟩

def Fresh (p : Proc) : Prop := p = .loop .starting ∨ p = .client

instance (p : Proc) : Decidable (Fresh p) := inferInstanceAs (Decidable (_ ∨ _))

def Proc.isSending : Proc → Bool
  | .loop (.sending _ _) => true
  | _ => false

def initial (m : ChokingManager) : Config Loop Proc := ⟨⟨m, false, 0, 0, ∅⟩, [.loop .starting]⟩

/-- Nobody wakes the loop while a cycle waits for a send. -/
def Attentive (c : Config Loop Proc) : Move Proc Action → Prop
  | .spawn p => Fresh p
  | .act _ .wakes => ∀ p ∈ c.procs, p.isSending = false
  | .act _ _ => True

instance (c : Config Loop Proc) : (m : Move Proc Action) → Decidable (Attentive c m)
  | .spawn p => inferInstanceAs (Decidable (Fresh p))
  | .act _ a => by cases a <;> unfold Attentive <;> infer_instance

/-- A cycle has collected the interested peers after the last `wake`, or the event is still set. -/
def Heard (s : Loop) : Prop := s.wakeEvent = true ∨ s.collectedWakes = s.wakes

instance (s : Loop) : Decidable (Heard s) := inferInstanceAs (Decidable (_ ∨ _))

structure Alert (c : Config Loop Proc) : Prop where
  heard : Heard c.shared
  sending : ∀ p ∈ c.procs, p.isSending = true → c.shared.collectedWakes = c.shared.wakes

variable {c : Config Loop Proc} {m : ChokingManager}

theorem clientStep_wakes {a : Action} {s s' : Loop} (h : clientStep a s = some s') :
    a = .wakes ∧ s' = { s with wakeEvent := true, wakes := s.wakes + 1 } ∨
      s'.wakeEvent = s.wakeEvent ∧ s'.wakes = s.wakes ∧ s'.collectedWakes = s.collectedWakes := by
  cases a with
  | wakes => exact Or.inl ⟨rfl, (Option.some.inj h).symm⟩
  | registers compacts addr isConnected =>
    rw [← Option.some.inj h]
    exact Or.inr ⟨rfl, rfl, rfl⟩
  | unregisters addr =>
    rw [← Option.some.inj h]
    exact Or.inr ⟨rfl, rfl, rfl⟩
  | changes addr r =>
    rw [← Option.some.inj h]
    exact Or.inr ⟨rfl, rfl, rfl⟩
  | seeds isSeeding =>
    rw [← Option.some.inj h]
    exact Or.inr ⟨rfl, rfl, rfl⟩
  | _ => cases h

/-- A cycle hears of all wake-ups, also at its end. -/
theorem afterCycle_heard {s s' : Loop} {next : ChokingManager × Phase} {point : Point}
    (hs : s.collectedWakes = s.wakes) (h : afterCycle s next = (s', point)) :
    s'.collectedWakes = s'.wakes := by
  rcases afterCycle_cases h with ⟨-, -, rfl⟩ | ⟨-, rfl, -⟩
  · exact hs
  · exact hs

theorem Alert.loop (h : Alert c) {i : ℕ} {a : Action} {point point' : Point} {s : Loop}
    (hp : c.procs[i]? = some (.loop point)) (hturn : Turn a c.shared point s point') :
    Alert ⟨s, c.procs.set i (.loop point')⟩ := by
  have hcycle : s.collectedWakes = s.wakes → Alert ⟨s, c.procs.set i (.loop point')⟩ :=
    fun hs => ⟨Or.inr hs, fun _ _ _ => hs⟩
  cases hturn with
  | cycle pick _ hstart => exact hcycle (afterCycle_heard rfl hstart)
  | resumes _ hpoint hafter =>
    have hs := h.sending _ (List.mem_of_getElem? hp) (by rw [hpoint]; rfl)
    exact hcycle (afterCycle_heard hs hafter)
  | idles hs hpoint =>
    subst hs
    refine ⟨h.heard, forall_mem_set h.sending fun hsending => ?_⟩
    rcases hpoint with rfl | ⟨_, rfl⟩ <;> cases hsending

theorem attentive_alert (h : Reach program Attentive (initial m) c) : Alert c := by
  refine h.invariant (I := Alert) ⟨Or.inr rfl, fun _ _ _ => rfl⟩ ?_ ?_
  · intro c p ih hfresh
    refine ⟨ih.heard, forall_mem_concat ih.sending fun hsending => ?_⟩
    rcases hfresh with rfl | rfl <;> cases hsending
  · intro c i a p s p' ih hok hp hs
    rcases program_cases hs with ⟨point, point', rfl, rfl, hturn⟩ | ⟨rfl, rfl, hclient⟩
    · exact ih.loop hp hturn
    · have hmem : ∀ q ∈ c.procs.set i .client, q.isSending = true → q ∈ c.procs := by
        intro q hq hsending
        rcases mem_set_cases hq with rfl | hq
        · cases hsending
        · exact hq
      rcases clientStep_wakes hclient with ⟨rfl, rfl⟩ | ⟨hevent, hwakes, hcollected⟩
      · refine ⟨Or.inl rfl, fun q hq hsending => ?_⟩
        cases (hok q (hmem q hq hsending)).symm.trans hsending
      · constructor
        · rw [Heard, hevent, hwakes, hcollected]
          exact ih.heard
        · intro q hq hsending
          rw [hwakes, hcollected]
          exact ih.sending q (hmem q hq hsending) hsending

/-- No wake-up is lost where none comes while a cycle waits for a send. One that does is lost when
the cycle is complete. -/
theorem wakes_heard (m : ChokingManager) :
    (∀ c, Reach program Attentive (initial m) c → Heard c.shared) ∧
      ∀ c c₁ c₂ i j toUnchoke it, Reach program Attentive (initial m) c →
        c.procs[i]? = some (.loop (.sending toUnchoke it)) →
        apply program c (.act j .wakes) = some c₁ → apply program c₁ (.act i .returns) = some c₂ →
        c₂.procs[i]? = some (.loop .waiting) → ¬ Heard c₂.shared := by
  refine ⟨fun c h => (attentive_alert h).heard, ?_⟩
  intro c c₁ c₂ i j toUnchoke it hreach hsending hwake hreturn hwaiting
  have hcollected := (attentive_alert hreach).sending _ (List.mem_of_getElem? hsending) rfl
  obtain ⟨p, s, p', -, hstep, rfl⟩ := apply_act hwake
  rcases program_cases hstep with ⟨point, point', rfl, -, hturn⟩ | ⟨rfl, rfl, hclient⟩
  · cases hturn with
    | cycle pick hstarts _ => cases hstarts
    | resumes ha _ _ => cases ha
    | idles _ _ => cases hstep
  · obtain rfl := Option.some.inj hclient
    obtain ⟨q, s₂, q', hq, hstep₂, rfl⟩ := apply_act hreturn
    obtain ⟨hlt, -⟩ := List.getElem?_eq_some_iff.mp hq
    rw [List.getElem?_set_self hlt] at hwaiting
    obtain rfl := Option.some.inj hwaiting
    rcases program_cases hstep₂ with ⟨point, point', -, hpoint', hturn⟩ | ⟨-, hq', -⟩
    · obtain rfl := Proc.loop.inj hpoint'
      cases hturn with
      | cycle pick hstarts _ => cases hstarts
      | idles _ hpoint => rcases hpoint with hpoint | ⟨_, hpoint⟩ <;> cases hpoint
      | resumes _ _ hafter =>
        rcases afterCycle_cases hafter with ⟨-, -, rfl⟩ | ⟨hne, -, -⟩
        · rintro (hevent | hall)
          · cases hevent
          · have hall' : c.shared.collectedWakes = c.shared.wakes + 1 := hall
            omega
        · exact absurd rfl hne
    · cases hq'

def twoPeers : ChokingManager where
  maxUnchoked := 4
  optimisticEvery := 3
  rates := ⟨[some (⟨[97], 1⟩, ⟨true, 0, 0, true, true⟩), some (⟨[98], 2⟩, .new true)], by decide⟩
  optimisticAddr := none
  ticksSinceOptimistic := 0
  isSeeding := false

/-- The second peer becomes interested while the loop waits. -/
theorem wakes_heard_idle : ∃ c,
    run program (initial twoPeers) [.spawn .client, .act 0 (.rounds false 0), .act 0 .returns,
      .act 1 (.changes ⟨[98], 2⟩ ⟨true, 0, 0, true, true⟩), .act 1 .wakes, .act 0 (.stirs false),
      .act 0 (.rounds false 0), .act 0 .returns] = some c ∧
      c.procs[0]? = some (.loop .waiting) ∧ c.shared.wakes = 1 ∧ Heard c.shared := by
  obtain ⟨c, hrun, hwaiting, hwakes, hok⟩ : ∃ c,
      run program (initial twoPeers) [.spawn .client, .act 0 (.rounds false 0), .act 0 .returns,
        .act 1 (.changes ⟨[98], 2⟩ ⟨true, 0, 0, true, true⟩), .act 1 .wakes, .act 0 (.stirs false),
        .act 0 (.rounds false 0), .act 0 .returns] = some c ∧
      c.procs[0]? = some (.loop .waiting) ∧ c.shared.wakes = 1 ∧
      Allowed program Attentive (initial twoPeers) [.spawn .client, .act 0 (.rounds false 0),
        .act 0 .returns, .act 1 (.changes ⟨[98], 2⟩ ⟨true, 0, 0, true, true⟩), .act 1 .wakes,
        .act 0 (.stirs false), .act 0 (.rounds false 0), .act 0 .returns] :=
    ⟨_, rfl, by decide +kernel, by decide +kernel, by decide +kernel⟩
  exact ⟨c, hrun, hwaiting, hwakes, (wakes_heard twoPeers).1 c (reach_run hok hrun)⟩

/-- The second peer becomes interested while the first one is sent its Unchoke. -/
theorem wake_lost : ∃ c,
    run program (initial twoPeers) [.spawn .client, .act 0 (.rounds false 0),
      .act 1 (.changes ⟨[98], 2⟩ ⟨true, 0, 0, true, true⟩), .act 1 .wakes, .act 0 .returns] =
        some c ∧
      c.procs[0]? = some (.loop .waiting) ∧ ⟨[98], 2⟩ ∉ c.shared.collected ∧ ¬ Heard c.shared :=
  ⟨_, rfl, by decide +kernel, by decide +kernel, by decide +kernel⟩

end ChokingLoop
