import Aiobt.BtHandshake
import Aiobt.MseHandshake

/-! # Connections to peers

`PeerConnection.connect` of `peer.py` and `Client._handle_incoming` of `client.py`, and what is
written once `run_peer` has been started. -/
namespace PeerConnections

open ByteStrings DiffieHellman SegmentedReads MseStreams MseHandshake BtHandshake

inductive Content where
  | mse
  | handshake
  | message
  deriving DecidableEq, Repr

structure Write where
  content : Content
  data : Bytes
  wire : Bytes
  deriving DecidableEq, Repr

def mseWrite (b : Bytes) : List Write := if b = [] then [] else [⟨.mse, b, b⟩]

inductive PeerStream where
  | raw
  | mse (negotiated : Negotiated) (stream : MSEStream)

def PeerStream.base : PeerStream → MSEStream
  | .raw => .plaintext
  | .mse _ stream => stream

def PeerStream.over : PeerStream → MSEStream → PeerStream
  | .raw, _ => .raw
  | .mse negotiated _, stream => .mse negotiated stream

def PeerStream.write (content : Content) (data : Bytes) (s : PeerStream) : Write × PeerStream :=
  (⟨content, data, (s.base.write data).1⟩, s.over (s.base.write data).2)

inductive Next (τ η : Type) where
  | waits (st : τ)
  | runs (stream : PeerStream)
  | ends (why : η)

/-- How a connection is opened, from await to await; `ε` is what the client has at the time. A write
and the `drain` behind it are one step, except where success lets `run_peer` start. `fails` is any
`Exception` at the await: a timeout, the end of the stream, the loss of the connection. -/
structure Opening (ε τ η : Type) where
  start : List Write × Next τ η
  demand : τ → Demand
  feed : ε → τ → Bytes → List Write × Next τ η
  fails : τ → List Write × Next τ η
  cancelled : τ → η

inductive Stage (τ η : Type) where
  | opening (st : τ)
  /-- `run_peer` has been started; a call on its reader may be waiting. -/
  | running (stream : PeerStream) (call : Option Call)
  | stopped (stream : PeerStream)
  | ended (why : η)

structure Connection (τ η : Type) where
  stage : Stage τ η
  incoming : Bytes
  log : List Write

inductive Event (ε : Type) where
  /-- The await gets the next `k` bytes. -/
  | receives (k : ℕ) (env : ε)
  | fails
  | cancelled
  | sends (message : Bytes)
  | calls (call : Call)

variable {ε τ η : Type}

def Stage.ofNext : Next τ η → Stage τ η
  | .waits st => .opening st
  | .runs stream => .running stream none
  | .ends why => .ended why

def Stage.goOn (stream : PeerStream) : ReadOutcome → Stage τ η
  | .waits r => .running (stream.over r.stream) (some r.call)
  | .returns (_, after) => .running (stream.over after) none
  | .raises _ => .stopped stream

def Connection.advance (c : Connection τ η) (k : ℕ) (next : List Write × Next τ η) :
    Connection τ η :=
  ⟨.ofNext next.2, c.incoming.drop k, c.log ++ next.1⟩

def Connection.step (O : Opening ε τ η) (c : Connection τ η) : Event ε → Option (Connection τ η)
  | .receives k env =>
    match c.stage with
    | .opening st =>
      if (O.demand st).Serves (c.incoming.take k) then
        some (c.advance k (O.feed env st (c.incoming.take k)))
      else none
    | .running stream (some call) =>
      if (reads.demand ⟨stream.base, call⟩).Serves (c.incoming.take k) then
        some { c with
          stage := .goOn stream (reads.feed ⟨stream.base, call⟩ (c.incoming.take k)).2
          incoming := c.incoming.drop k }
      else none
    | _ => none
  | .fails =>
    match c.stage with
    | .opening st => some (c.advance 0 (O.fails st))
    | .running stream _ => some { c with stage := .stopped stream }
    | _ => none
  | .cancelled =>
    match c.stage with
    | .opening st => some { c with stage := .ended (O.cancelled st) }
    | .running stream _ => some { c with stage := .stopped stream }
    | _ => none
  | .sends message =>
    match c.stage with
    | .running stream call =>
      let sent := stream.write .message message
      some { c with stage := .running sent.2 call, log := c.log ++ [sent.1] }
    | _ => none
  | .calls call =>
    match c.stage with
    | .running stream none => some { c with stage := .goOn stream (startRead stream.base call) }
    | _ => none

def Connection.start (O : Opening ε τ η) (incoming : Bytes) : Connection τ η :=
  ⟨.ofNext O.start.2, incoming, O.start.1⟩

def Connection.run (O : Opening ε τ η) : Connection τ η → List (Event ε) → Option (Connection τ η)
  | c, [] => some c
  | c, event :: rest => (c.step O event).bind fun c' => Connection.run O c' rest

variable {O : Opening ε τ η} {c c' c'' : Connection τ η}

def Reads (stream : MSEStream) (o : ReadOutcome) : Prop :=
  (∃ call, o = startRead stream call) ∨ ∃ call segment, o = (reads.feed ⟨stream, call⟩ segment).2

inductive Connection.Steps (O : Opening ε τ η) (c : Connection τ η) : Connection τ η → Prop
  | feeds {st k env} : c.stage = .opening st → (O.demand st).Serves (c.incoming.take k) →
      Connection.Steps O c (c.advance k (O.feed env st (c.incoming.take k)))
  | fails {st} : c.stage = .opening st → Connection.Steps O c (c.advance 0 (O.fails st))
  | cancels {st} : c.stage = .opening st →
      Connection.Steps O c { c with stage := .ended (O.cancelled st) }
  | reads {stream call o} (incoming : Bytes) : c.stage = .running stream call →
      Reads stream.base o →
      Connection.Steps O c { c with stage := .goOn stream o, incoming := incoming }
  | sends {stream call} (message : Bytes) : c.stage = .running stream call →
      Connection.Steps O c { c with
        stage := .running (stream.write .message message).2 call
        log := c.log ++ [(stream.write .message message).1] }
  | stops {stream call} : c.stage = .running stream call →
      Connection.Steps O c { c with stage := .stopped stream }

theorem Connection.steps {event : Event ε} (h : c.step O event = some c') : c.Steps O c' := by
  cases event with
  | receives k env =>
    simp only [Connection.step] at h
    split at h
    · next st hst =>
      split at h
      · next hserves =>
        cases h
        exact .feeds hst hserves
      · cases h
    · next stream call hst =>
      split at h
      · cases h
        exact .reads _ hst (Or.inr ⟨call, _, rfl⟩)
      · cases h
    · cases h
  | fails =>
    simp only [Connection.step] at h
    split at h
    · next st hst =>
      cases h
      exact .fails hst
    · next stream call hst =>
      cases h
      exact .stops hst
    · cases h
  | cancelled =>
    simp only [Connection.step] at h
    split at h
    · next st hst =>
      cases h
      exact .cancels hst
    · next stream call hst =>
      cases h
      exact .stops hst
    · cases h
  | sends message =>
    simp only [Connection.step] at h
    split at h
    · next stream call hst =>
      cases h
      exact .sends message hst
    · cases h
  | calls call =>
    simp only [Connection.step] at h
    split at h
    · next stream hst =>
      cases h
      exact .reads _ hst (Or.inl ⟨call, rfl⟩)
    · cases h

theorem Connection.Steps.log (h : c.Steps O c') : ∃ more, c'.log = c.log ++ more := by
  cases h with
  | feeds _ _ => exact ⟨_, rfl⟩
  | fails _ => exact ⟨_, rfl⟩
  | cancels _ => exact ⟨[], (List.append_nil _).symm⟩
  | reads _ _ _ => exact ⟨[], (List.append_nil _).symm⟩
  | sends _ _ => exact ⟨_, rfl⟩
  | stops _ => exact ⟨[], (List.append_nil _).symm⟩

theorem Connection.step_feeds {st : τ} {k : ℕ} {env : ε} (hst : c.stage = .opening st)
    (hserves : (O.demand st).Serves (c.incoming.take k)) :
    c.step O (.receives k env) = some (c.advance k (O.feed env st (c.incoming.take k))) := by
  simp only [Connection.step, hst, if_pos hserves]

theorem Connection.step_segment {st : τ} {n : ℕ} {env : ε} {segment rest : Bytes}
    {out : List Write} {next : Next τ η} (hst : c.stage = .opening st)
    (hincoming : c.incoming = segment ++ rest) (hlen : segment.length = n)
    (hserves : (O.demand st).Serves segment) (hfeed : O.feed env st segment = (out, next)) :
    c.step O (.receives n env) = some ⟨.ofNext next, rest, c.log ++ out⟩ := by
  have htake : c.incoming.take n = segment := by rw [hincoming, List.take_left' hlen]
  have hdrop : c.incoming.drop n = rest := by rw [hincoming, List.drop_left' hlen]
  rw [← htake] at hserves
  rw [Connection.step_feeds hst hserves, Connection.advance, htake, hdrop, hfeed]

theorem Connection.run_cons {event : Event ε} (h : c.step O event = some c')
    (rest : List (Event ε)) : c.run O (event :: rest) = c'.run O rest := by
  rw [Connection.run, h, Option.bind_some]

theorem Connection.run_append {events more : List (Event ε)} (h : c.run O events = some c') :
    c.run O (events ++ more) = c'.run O more := by
  induction events generalizing c with
  | nil =>
    obtain rfl := Option.some.inj h
    rfl
  | cons event rest ih =>
    obtain ⟨c₁, hone, hrest⟩ := Option.bind_eq_some_iff.mp h
    rw [List.cons_append, Connection.run_cons hone]
    exact ih hrest

/-- What every step keeps holds after a run. -/
theorem Connection.run_invariant {I : Connection τ η → Prop}
    (hstep : ∀ c event c', I c → c.step O event = some c' → I c') {events : List (Event ε)}
    (h : I c) (hrun : c.run O events = some c') : I c' := by
  induction events generalizing c with
  | nil =>
    obtain rfl := Option.some.inj hrun
    exact h
  | cons event rest ih =>
    obtain ⟨c₁, hone, hrest⟩ := Option.bind_eq_some_iff.mp hrun
    exact ih (hstep c event c₁ h hone) hrest

theorem Connection.run_log {events : List (Event ε)} (hrun : c.run O events = some c') :
    ∃ more, c'.log = c.log ++ more := by
  refine Connection.run_invariant (I := fun k => ∃ more, k.log = c.log ++ more) ?_
    ⟨[], (List.append_nil _).symm⟩ hrun
  rintro k event k' ⟨more, hmore⟩ hstep
  obtain ⟨further, hfurther⟩ := (Connection.steps hstep).log
  exact ⟨more ++ further, by rw [hfurther, hmore, List.append_assoc]⟩

structure OutgoingCall where
  infoHash : Bytes
  ourPeerId : Bytes
  encryption : EncryptionPolicy
  privateKey : PrivateKey
  padA : Pad
  padC : Pad

def OutgoingCall.mse (c : OutgoingCall) : InitiatorCall :=
  ⟨c.infoHash, c.encryption, c.privateKey, c.padA, c.padC⟩

def OutgoingCall.handshake (c : OutgoingCall) : Handshake := { infoHash := c.infoHash, peerId := c.ourPeerId }

inductive Connecting where
  | initiating (st : Initiating)
  | receivingHandshake (stream : PeerStream) (call : Call)

inductive ConnectError where
  | mse (e : Failure)
  | handshake (e : HandshakeError)
  | infoHashMismatch (expected got : Bytes)
  | connectionLost
  | cancelled
  deriving DecidableEq, Repr

abbrev Connect := List Write × Next Connecting ConnectError

def receiveHandshake (c : OutgoingCall) (stream : PeerStream) :
    ReadOutcome → Next Connecting ConnectError
  | .waits r => .waits (.receivingHandshake (stream.over r.stream) r.call)
  | .raises _ => .ends .connectionLost
  | .returns (data, after) =>
    match Handshake.fromBytes data with
    | .error e => .ends (.handshake e)
    | .ok hs =>
      if hs.infoHash ≠ c.infoHash then .ends (.infoHashMismatch c.infoHash hs.infoHash)
      else .runs (stream.over after)

def sendHandshake (c : OutgoingCall) (stream : PeerStream) : Connect :=
  let sent := stream.write .handshake c.handshake.toBytes
  ([sent.1], receiveHandshake c sent.2 (startRead sent.2.base (.readexactly handshakeLength)))

def fallBack (c : OutgoingCall) (e : ConnectError) : Connect :=
  if c.encryption = .forced then ([], .ends e) else sendHandshake c .raw

def initiated (c : OutgoingCall) (out : Bytes) : InitiatorOutcome → Connect
  | .waits st => (mseWrite out, .waits (.initiating st))
  | .returns n =>
    let next := sendHandshake c (.mse n n.result.stream)
    (mseWrite out ++ next.1, next.2)
  | .raises e =>
    let next := fallBack c (.mse e)
    (mseWrite out ++ next.1, next.2)

def connect (c : OutgoingCall) : Opening Unit Connecting ConnectError where
  start :=
    if c.encryption = .preferred ∨ c.encryption = .forced then
      (mseWrite c.mse.publicValue, .waits (.initiating .publicKey))
    else sendHandshake c .raw
  demand
    | .initiating st => (mseInitiate c.mse).demand st
    | .receivingHandshake stream call => reads.demand ⟨stream.base, call⟩
  feed
    | _, .initiating st, segment =>
      let step := (mseInitiate c.mse).feed st segment
      initiated c step.1 step.2
    | _, .receivingHandshake stream call, segment =>
      ([], receiveHandshake c stream (reads.feed ⟨stream.base, call⟩ segment).2)
  fails
    | .initiating _ => fallBack c .connectionLost
    | .receivingHandshake _ _ => ([], .ends .connectionLost)
  cancelled _ := .cancelled

structure IncomingCall where
  encryption : EncryptionPolicy
  ourPeerId : Bytes
  privateKey : PrivateKey
  padB : Pad
  padD : Pad

inductive Path where
  | mse
  | plaintext
  deriving DecidableEq, Repr

inductive Handling where
  | firstByte
  | receiving (firstByte : UInt8) (call : ReceiverCall) (st : Receiving)
  | mseHandshake (matchedHash : Bytes) (negotiated : Negotiated) (r : Reading)
  | rest (firstByte : UInt8)
  | greeting (stream : PeerStream)

inductive Closing where
  | mse (e : Failure)
  | handshake (e : HandshakeError)
  | noInfoHash
  | unknownTorrent
  | infoHashMismatch
  | encryptionForced
  | connectionLost
  | cancelled
  deriving DecidableEq, Repr

structure Closed where
  path : Option Path
  why : Closing
  deriving DecidableEq, Repr

abbrev Handle := List Write × Next Handling Closed

def greet (c : IncomingCall) (infoHash : Bytes) (stream : PeerStream) : Handle :=
  let ours : Handshake := { infoHash := infoHash, peerId := c.ourPeerId }
  let sent := stream.write .handshake ours.toBytes
  ([sent.1], .waits (.greeting sent.2))

def acceptMse (c : IncomingCall) (matchedHash : Bytes) (negotiated : Negotiated) :
    ReadOutcome → Handle
  | .waits r => ([], .waits (.mseHandshake matchedHash negotiated r))
  | .raises _ => ([], .ends ⟨some .mse, .connectionLost⟩)
  | .returns (data, after) =>
    match Handshake.fromBytes data with
    | .error e => ([], .ends ⟨some .mse, .handshake e⟩)
    | .ok hs =>
      if hs.infoHash ≠ matchedHash then ([], .ends ⟨some .mse, .infoHashMismatch⟩)
      else greet c hs.infoHash (.mse negotiated after)

def received (c : IncomingCall) (sessions : List Bytes) (n : Negotiated) : Handle :=
  match n.result.infoHash with
  | none => ([], .ends ⟨some .mse, .noInfoHash⟩)
  | some matchedHash =>
    if matchedHash ∉ sessions then ([], .ends ⟨some .mse, .unknownTorrent⟩)
    else
      acceptMse c matchedHash n (startRead n.result.stream (.readexactly handshakeLength))

/-- The first byte is read by itself and given back to `mse_receive`. -/
def prefixed (firstByte : UInt8) : Receiving → Bytes → Bytes
  | .publicKey, segment => firstByte :: segment
  | _, segment => segment

def detect (c : IncomingCall) (sessions : List Bytes) (firstByte : UInt8) : Handle :=
  if firstByte ≠ 19 ∧ c.encryption ≠ .disabled then
    ([], .waits (.receiving firstByte
      ⟨.dict (sessions.map fun ih => (ih, ih)), c.encryption, c.privateKey, c.padB, c.padD⟩
      .publicKey))
  else if c.encryption = .forced ∧ firstByte ≠ 19 then
    ([], .ends ⟨some .plaintext, .encryptionForced⟩)
  else ([], .waits (.rest firstByte))

def acceptPlaintext (c : IncomingCall) (sessions : List Bytes) (data : Bytes) : Handle :=
  match Handshake.fromBytes data with
  | .error e => ([], .ends ⟨some .plaintext, .handshake e⟩)
  | .ok hs =>
    if hs.infoHash ∉ sessions then ([], .ends ⟨some .plaintext, .unknownTorrent⟩)
    else if c.encryption = .forced then ([], .ends ⟨some .plaintext, .encryptionForced⟩)
    else greet c hs.infoHash .raw

def PeerStream.path : PeerStream → Path
  | .raw => .plaintext
  | .mse _ _ => .mse

def Handling.path : Handling → Option Path
  | .firstByte => none
  | .receiving _ _ _ => some .mse
  | .mseHandshake _ _ _ => some .mse
  | .rest _ => some .plaintext
  | .greeting stream => some stream.path

def handleIncoming (c : IncomingCall) : Opening (List Bytes) Handling Closed where
  start := ([], .waits .firstByte)
  demand
    | .firstByte => .exactly 1
    | .receiving _ call st =>
      match st with
      | .publicKey => .exactly 95
      | st => (mseReceive call).demand st
    | .mseHandshake _ _ r => reads.demand r
    | .rest _ => .exactly (handshakeLength - 1)
    | .greeting _ => .drained
  feed
    | sessions, .firstByte, segment => detect c sessions (segment.headD 0)
    | sessions, .receiving firstByte call st, segment =>
      let step := (mseReceive call).feed st (prefixed firstByte st segment)
      match step.2 with
      | .waits st' => (mseWrite step.1, .waits (.receiving firstByte call st'))
      | .raises e => (mseWrite step.1, .ends ⟨some .mse, .mse e⟩)
      | .returns n =>
        let next := received c sessions n
        (mseWrite step.1 ++ next.1, next.2)
    | _, .mseHandshake matchedHash negotiated r, segment =>
      acceptMse c matchedHash negotiated (reads.feed r segment).2
    | sessions, .rest firstByte, segment => acceptPlaintext c sessions (firstByte :: segment)
    | _, .greeting stream, _ => ([], .runs stream)
  fails st := ([], .ends ⟨st.path, .connectionLost⟩)
  cancelled st := ⟨st.path, .cancelled⟩

def Stage.path : Stage Handling Closed → Option Path
  | .opening st => st.path
  | .running stream _ => some stream.path
  | .stopped stream => some stream.path
  | .ended why => why.path

end PeerConnections
