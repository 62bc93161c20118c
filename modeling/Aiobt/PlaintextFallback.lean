import Aiobt.PeerConnections

/-! # The fallback of an outgoing connection

When `mse_initiate` fails, `connect` goes on in clear on the same connection, where the public value
has been written already. -/
namespace PlaintextFallback

open ByteStrings DiffieHellman SegmentedReads MseStreams MseHandshake BtHandshake PeerConnections

def wireBytes (log : List Write) : Bytes := (log.map Write.wire).flatten

theorem wireBytes_cons (w : Write) (more : List Write) :
    wireBytes (w :: more) = w.wire ++ wireBytes more := by
  rw [wireBytes, List.map_cons, List.flatten_cons, wireBytes]

def HandshakeFirst (log : List Write) : Prop :=
  ∃ before w after, log = before ++ w :: after ∧ w.content = .handshake ∧ wireBytes before = []

inductive InitiateFails (c : OutgoingCall) (k : Connection Connecting ConnectError) :
    Event Unit → Prop
  | error {st} : k.stage = .opening (.initiating st) → InitiateFails c k .fails
  | raises {st n e} : k.stage = .opening (.initiating st) →
      ((mseInitiate c.mse).demand st).Serves (k.incoming.take n) →
      ((mseInitiate c.mse).feed st (k.incoming.take n)).2 = .raises e →
      InitiateFails c k (.receives n ())

def plainHandshake (c : OutgoingCall) : Write :=
  ⟨.handshake, c.handshake.toBytes, c.handshake.toBytes⟩

variable {c : OutgoingCall} {k k' : Connection Connecting ConnectError} {event : Event Unit}

theorem fallBack_preferred (hpolicy : c.encryption = .preferred) (e : ConnectError) :
    fallBack c e = ([plainHandshake c],
      .waits (.receivingHandshake .raw (.readexactly handshakeLength))) := by
  rw [fallBack, hpolicy, if_neg (by decide)]
  rfl

/-- Each failure makes `connect` send its handshake in clear. -/
theorem fails_sends (hpolicy : c.encryption = .preferred) (hfails : InitiateFails c k event) :
    ∃ k', k.step (connect c) event = some k' ∧
      k'.stage = .opening (.receivingHandshake .raw (.readexactly handshakeLength)) ∧
      ∃ before, k'.log = k.log ++ before ++ [plainHandshake c] := by
  cases hfails with
  | error hst =>
    refine ⟨k.advance 0 (fallBack c .connectionLost), ?_, ?_⟩
    · simp only [Connection.step, hst]
      rfl
    · rw [fallBack_preferred hpolicy]
      exact ⟨rfl, [], by rw [List.append_nil]; rfl⟩
  | @raises st n e hst hserves hraises =>
    have hfeed : (connect c).feed () (.initiating st) (k.incoming.take n) =
        initiated c ((mseInitiate c.mse).feed st (k.incoming.take n)).1 (.raises e) := by
      rw [← hraises]
      rfl
    refine ⟨_, Connection.step_feeds hst hserves, ?_⟩
    rw [hfeed, initiated, fallBack_preferred hpolicy]
    exact ⟨rfl, _, (List.append_assoc _ _ _).symm⟩

theorem publicValue_ne (a : InitiatorCall) : a.publicValue ≠ [] := by
  intro hnil
  have hlen := congrArg List.length hnil
  rw [InitiatorCall.publicValue, List.length_append, length_dhKeypair] at hlen
  exact absurd hlen (by rw [List.length_nil]; omega)

theorem start_log (hpolicy : c.encryption = .preferred) (incoming : Bytes) :
    (Connection.start (connect c) incoming).log =
      [⟨.mse, c.mse.publicValue, c.mse.publicValue⟩] := by
  have hstart : (connect c).start.1 = mseWrite c.mse.publicValue := by
    simp only [connect, hpolicy, true_or, if_true]
  rw [Connection.start, hstart, mseWrite, if_neg (publicValue_ne _)]

theorem not_handshakeFirst {b : Bytes} (hb : b ≠ []) (more : List Write) :
    ¬ HandshakeFirst (⟨.mse, b, b⟩ :: more) := by
  rintro ⟨before, w, after, hlog, hcontent, hnone⟩
  cases before with
  | nil =>
    obtain ⟨rfl, -⟩ := List.cons.inj hlog
    cases hcontent
  | cons first rest =>
    obtain ⟨rfl, -⟩ := List.cons.inj hlog
    rw [wireBytes_cons] at hnone
    exact hb (List.append_eq_nil_iff.mp hnone).1

/-- In every run in which `mse_initiate` fails, the handshake that is sent then is not the first
data, neither at once nor later: the public value is in front of it. -/
theorem fallback_not_first {incoming : Bytes} {events : List (Event Unit)}
    (hpolicy : c.encryption = .preferred)
    (hrun : (Connection.start (connect c) incoming).run (connect c) events = some k)
    (hfails : InitiateFails c k event) :
    ∃ k', k.step (connect c) event = some k' ∧
      (∃ before, k'.log = before ++ [plainHandshake c] ∧
        c.mse.publicValue <+: wireBytes before) ∧
      ∀ more k'', k'.run (connect c) more = some k'' → ¬ HandshakeFirst k''.log := by
  obtain ⟨done, hdone⟩ := Connection.run_log hrun
  rw [start_log hpolicy] at hdone
  obtain ⟨k', hstep, -, before, hlog⟩ := fails_sends hpolicy hfails
  rw [hdone] at hlog
  refine ⟨k', hstep, ⟨_, hlog, ?_⟩, ?_⟩
  · rw [List.append_assoc, List.singleton_append, wireBytes_cons]
    exact List.prefix_append _ _
  · intro more k'' hmore
    obtain ⟨further, hfurther⟩ := Connection.run_log hmore
    rw [hfurther, hlog, List.append_assoc, List.append_assoc, List.append_assoc]
    exact not_handshakeFirst (publicValue_ne _) _

def someOutgoing : OutgoingCall where
  infoHash := List.replicate 20 5
  ourPeerId := List.replicate 20 7
  encryption := .preferred
  privateKey := Vector.replicate 20 1
  padA := ⟨[], nil_fits⟩
  padC := ⟨[], nil_fits⟩

/-- The remote does not answer: a handshake is sent, and it is not first. -/
theorem fallback_behind_publicValue :
    ∃ k, (Connection.start (connect someOutgoing) []).run (connect someOutgoing) [.fails] = some k ∧
      plainHandshake someOutgoing ∈ k.log ∧ ¬ HandshakeFirst k.log := by
  have hpolicy : someOutgoing.encryption = .preferred := rfl
  have hfails : InitiateFails someOutgoing (.start (connect someOutgoing) []) .fails := .error rfl
  obtain ⟨k, hstep, -, before, hlog⟩ := fails_sends hpolicy hfails
  refine ⟨k, Connection.run_cons hstep [], ?_, ?_⟩
  · rw [hlog]
    exact List.mem_append_right _ (List.mem_singleton_self _)
  · rw [hlog, start_log hpolicy, List.append_assoc]
    exact not_handshakeFirst (publicValue_ne _) _

theorem fallback_not_first_silent :
    ∃ k, (Connection.start (connect someOutgoing) []).step (connect someOutgoing) .fails = some k ∧
      ¬ HandshakeFirst k.log := by
  have hrun : (Connection.start (connect someOutgoing) []).run (connect someOutgoing) [] =
      some (.start (connect someOutgoing) []) := rfl
  have hfails : InitiateFails someOutgoing (.start (connect someOutgoing) []) .fails := .error rfl
  obtain ⟨k, hstep, -, hnot⟩ := fallback_not_first rfl hrun hfails
  exact ⟨k, hstep, hnot [] k rfl⟩

end PlaintextFallback
