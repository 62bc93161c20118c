import Aiobt.ForcedEncryption
import Aiobt.PeerRegistry

/-! # Admission of a peer

`add_peer` of `client.py` with the awaits of `PeerConnection.connect` under it. What is raised, and
who closes the TCP connection, depends on the await at which the remote fails. -/
namespace PeerAdmission

open ByteStrings SegmentedReads MseStreams MseHandshake BtHandshake PeerConnections
open PieceEngine (Address)
open Rc4 (RC4)

structure Session where
  peers : Address → Option ℕ
  rates : Address → Option ℕ
  tasks : List ℕ
  connected : List Address

inductive Tcp where
  | absent
  | established
  | closed
  deriving DecidableEq, Repr

inductive Raised where
  | notRunning
  /-- `ValueError`: no torrent loaded for this `info_hash`. -/
  | noTorrent
  | refused
  | timedOut
  | lost
  | incompleteRead
  | mse (e : Failure)
  | handshake (e : HandshakeError)
  | infoHashMismatch (expected got : Bytes)
  deriving DecidableEq, Repr

def isConnectionError : Failure → Bool
  | .peerClosed | .vcNotFound | .vcVerificationFailed | .req1NotFound | .noMatchingInfoHash => true
  | _ => false

/-- What `except OSError, asyncio.TimeoutError` catches. A `ConnectionError` is an `OSError`. -/
def Raised.caught : Raised → Bool
  | .refused | .timedOut | .lost => true
  | .mse e => isConnectionError e
  | _ => false

inductive Stage where
  | opening
  | initiating (st : Initiating)
  | sending (stream : PeerStream)
  | receiving (stream : PeerStream)
  | closing (expected got : Bytes)
  | emitting
  | ended (raised : Option Raised)

structure Attempt where
  stage : Stage
  session : Session
  tcp : Tcp

structure Peer where
  addr : Address
  conn : ℕ
  call : OutgoingCall

def start (running loaded : Bool) (p : Peer) (s : Session) : Attempt :=
  if running = false then ⟨.ended (some .notRunning), s, .absent⟩
  else if loaded = false then ⟨.ended (some .noTorrent), s, .absent⟩
  else if (s.peers p.addr).isSome then ⟨.ended none, s, .absent⟩
  else ⟨.opening, s, .absent⟩

namespace Attempt

def raises (a : Attempt) (e : Raised) : Attempt :=
  { a with stage := .ended (if e.caught then none else some e) }

def connects (p : Peer) (a : Attempt) : Attempt :=
  { a with
    stage := .emitting
    session := { a.session with
      peers := Function.update a.session.peers p.addr (some p.conn)
      connected := a.session.connected ++ [p.addr] } }

def registers (p : Peer) (a : Attempt) : Attempt :=
  { a with
    stage := .ended none
    session := { a.session with
      rates := Function.update a.session.rates p.addr (some p.conn)
      tasks := a.session.tasks ++ [p.conn] } }

def receives (p : Peer) (a : Attempt) (stream : PeerStream) : ReadOutcome → Attempt
  | .waits r => { a with stage := .receiving (stream.over r.stream) }
  | .raises .incompleteRead => a.raises .incompleteRead
  | .returns (data, _) =>
    match Handshake.fromBytes data with
    | .error e => a.raises (.handshake e)
    | .ok hs =>
      if hs.infoHash ≠ p.call.infoHash then
        { a with stage := .closing p.call.infoHash hs.infoHash, tcp := .closed }
      else a.connects p

def sends (p : Peer) (a : Attempt) (stream : PeerStream) : Attempt :=
  { a with stage := .sending (stream.write .handshake p.call.handshake.toBytes).2 }

def fallsBack (p : Peer) (a : Attempt) (e : Raised) : Attempt :=
  if p.call.encryption = .forced then { a with tcp := .closed }.raises e else a.sends p .raw

def initiates (p : Peer) (a : Attempt) : InitiatorOutcome → Attempt
  | .waits st => { a with stage := .initiating st }
  | .returns n => a.sends p (.mse n n.result.stream)
  | .raises e => a.fallsBack p (.mse e)

def opens (p : Peer) (a : Attempt) : Attempt :=
  if p.call.encryption = .preferred ∨ p.call.encryption = .forced then
    { a with stage := .initiating .publicKey, tcp := .established }
  else { a with tcp := .established }.sends p .raw

/-- An await raises as the connection is lost, with which the transport is closed. After the
handshake of `mse.py` the `drain` of the fallback raises again. -/
def loses (a : Attempt) : Attempt := { a with tcp := .closed }.raises .lost

end Attempt

def handshakeRead (stream : PeerStream) : Reading := ⟨stream.base, .readexactly handshakeLength⟩

inductive Arrival where
  | opened
  | refused
  | timedOut
  | segment (b : Bytes)
  | drained
  | eof
  | lost
  | closed
  | emitted
  deriving DecidableEq, Repr

/-- From one await to the next. Only `open_connection` and `mse_initiate` have a timeout. -/
def step (p : Peer) (a : Attempt) (arrival : Arrival) : Option Attempt :=
  match a.stage, arrival with
  | .opening, .opened => some (a.opens p)
  | .opening, .refused => some (a.raises .refused)
  | .opening, .timedOut => some (a.raises .timedOut)
  | .initiating st, .segment b =>
    if ((mseInitiate p.call.mse).demand st).Serves b then
      some (a.initiates p ((mseInitiate p.call.mse).feed st b).2)
    else none
  | .initiating st, .eof => some (a.initiates p ((mseInitiate p.call.mse).eof st))
  | .initiating _, .timedOut => some (a.fallsBack p .timedOut)
  | .initiating _, .lost => some a.loses
  | .sending stream, .drained =>
    some (a.receives p stream (startRead stream.base (.readexactly handshakeLength)))
  | .sending _, .lost => some a.loses
  | .receiving stream, .segment b =>
    if (reads.demand (handshakeRead stream)).Serves b then
      some (a.receives p stream (reads.feed (handshakeRead stream) b).2)
    else none
  | .receiving stream, .eof => some (a.receives p stream (reads.eof (handshakeRead stream)))
  | .receiving _, .lost => some a.loses
  | .closing expected got, .closed => some (a.raises (.infoHashMismatch expected got))
  | .closing _ _, .lost => some a.loses
  | .emitting, .emitted => some (a.registers p)
  | _, _ => none

def run (p : Peer) : Attempt → List Arrival → Option Attempt
  | a, [] => some a
  | a, arrival :: rest => (step p a arrival).bind fun a' => run p a' rest

def Session.registered (s : Session) (p : Peer) : Session where
  peers := Function.update s.peers p.addr (some p.conn)
  rates := Function.update s.rates p.addr (some p.conn)
  tasks := s.tasks ++ [p.conn]
  connected := s.connected ++ [p.addr]

structure AllOrNothing (p : Peer) (s : Session) (a : Attempt) : Prop where
  returned : a.stage = .ended none
  left : a.session = s.registered p ∨ (a.session = s ∧ a.tcp ≠ .established)

/-- Nothing more happens unless the remote does something: no timeout is running. -/
def Attempt.Rests (a : Attempt) : Prop :=
  (∃ raised, a.stage = .ended raised) ∨ ∃ stream, a.stage = .receiving stream

def Selects (c : InitiatorCall) (st : Initiating) (b : Bytes) (cryptoSelect : ℕ) : Prop :=
  ∃ enc dec data, ((mseInitiate c).feed st b).2 = initiatorResult c.policy enc dec cryptoSelect data

def WellFormed (o : ReadOutcome) : Prop :=
  ∀ data after, o = .returns (data, after) → ∃ hs, Handshake.fromBytes data = .ok hs

/-- What the remote may do. It may refuse, time out, or break the connection at any time; it may not
end its side within what is read as a whole, choose a method that is not allowed, or send what is
not a handshake, and another info hash is fine only where the connection breaks while it is closed. -/
def Harmless (p : Peer) (a : Attempt) (arrival : Arrival) : Prop :=
  match a.stage, arrival with
  | .initiating .publicKey, .eof => p.call.encryption ≠ .forced
  | .initiating st, .segment b => p.call.encryption = .forced →
      ∀ cryptoSelect, Selects p.call.mse st b cryptoSelect → cryptoSelect = cryptoRc4
  | .sending stream, .drained =>
    WellFormed (startRead stream.base (.readexactly handshakeLength))
  | .receiving stream, .segment b => WellFormed (reads.feed (handshakeRead stream) b).2
  | .receiving _, .eof => False
  | .closing _ _, .closed => False
  | _, _ => True

/-- Every arrival is harmless, and the remote does not fall silent while its handshake is awaited. -/
def HarmlessRun (p : Peer) : Attempt → List Arrival → Prop
  | a, [] => ∀ stream, a.stage ≠ .receiving stream
  | a, arrival :: rest => Harmless p a arrival ∧ ∀ a', step p a arrival = some a' → HarmlessRun p a' rest

def Attempt.Failed (a : Attempt) : Prop := ∃ e, a.stage = .ended (some e)

/-- The session stays as it was until the handshake is accepted, and no call returns with a connection
that it does not hand over. -/
def Holds (p : Peer) (s : Session) (a : Attempt) : Prop :=
  match a.stage with
  | .emitting => (a.registers p).session = s.registered p
  | .ended none => a.session = s.registered p ∨ (a.session = s ∧ a.tcp ≠ .established)
  | .opening | .closing _ _ => a.session = s ∧ a.tcp ≠ .established
  | _ => a.session = s

structure Leads (p : Peer) (s : Session) (a : Attempt) (bad : Prop) : Prop where
  holds : Holds p s a
  failed_iff : a.Failed ↔ bad

section

variable {p : Peer} {s : Session} {a a' : Attempt}

theorem leads_raises {e : Raised} (hsession : a.session = s)
    (htcp : e.caught = true → a.tcp ≠ .established) :
    Leads p s (a.raises e) (e.caught = false) := by
  unfold Attempt.raises
  cases hcaught : e.caught with
  | false => exact ⟨hsession, iff_of_true ⟨e, rfl⟩ rfl⟩
  | true => exact ⟨Or.inr ⟨hsession, htcp hcaught⟩, iff_of_false (by rintro ⟨_, ⟨⟩⟩) (by simp)⟩

theorem leads_connects (hsession : a.session = s) : Leads p s (a.connects p) False := by
  refine ⟨?_, iff_of_false (by rintro ⟨_, ⟨⟩⟩) id⟩
  subst hsession
  rfl

theorem leads_sends (hsession : a.session = s) (stream : PeerStream) :
    Leads p s (a.sends p stream) False :=
  ⟨hsession, iff_of_false (by rintro ⟨_, ⟨⟩⟩) id⟩

theorem leads_receives (hsession : a.session = s) (stream : PeerStream) {o : ReadOutcome}
    (ho : ∀ e, o ≠ .raises e) : Leads p s (a.receives p stream o) (¬ WellFormed o) := by
  cases o with
  | waits r =>
    refine ⟨hsession, iff_of_false (by rintro ⟨_, ⟨⟩⟩) fun h => h ?_⟩
    rintro _ _ ⟨⟩
  | raises e => exact absurd rfl (ho e)
  | returns given =>
    obtain ⟨data, after⟩ := given
    unfold Attempt.receives
    dsimp only
    cases hparse : Handshake.fromBytes data with
    | error e =>
      obtain ⟨hholds, hfailed⟩ := leads_raises (p := p) (e := .handshake e) hsession (by rintro ⟨⟩)
      refine ⟨hholds, hfailed.trans (iff_of_true rfl fun h => ?_)⟩
      obtain ⟨hs, hok⟩ := h data after rfl
      cases hparse.symm.trans hok
    | ok hs =>
      have hwell : WellFormed (.returns (data, after) : ReadOutcome) := by
        rintro _ _ ⟨⟩
        exact ⟨hs, hparse⟩
      dsimp only
      split_ifs
      · exact ⟨⟨hsession, by rintro ⟨⟩⟩, iff_of_false (by rintro ⟨_, ⟨⟩⟩) (not_not_intro hwell)⟩
      · obtain ⟨hholds, hfailed⟩ := leads_connects (p := p) hsession
        exact ⟨hholds, hfailed.trans (iff_of_false id (not_not_intro hwell))⟩

theorem leads_fallsBack (hsession : a.session = s) (e : Raised) :
    Leads p s (a.fallsBack p e) (p.call.encryption = .forced ∧ e.caught = false) := by
  unfold Attempt.fallsBack
  split_ifs with hforced
  · obtain ⟨hholds, hfailed⟩ := leads_raises (p := p) (s := s) (a := { a with tcp := .closed })
      (e := e) hsession (by rintro _ ⟨⟩)
    exact ⟨hholds, hfailed.trans ⟨fun h => ⟨hforced, h⟩, And.right⟩⟩
  · obtain ⟨hholds, hfailed⟩ := leads_sends (p := p) hsession .raw
    exact ⟨hholds, hfailed.trans (iff_of_false id fun h => hforced h.1)⟩

theorem leads_initiates (hsession : a.session = s) (o : InitiatorOutcome) :
    Leads p s (a.initiates p o)
      (p.call.encryption = .forced ∧ ∃ e, o = .raises e ∧ isConnectionError e = false) := by
  cases o with
  | waits st =>
    refine ⟨hsession, iff_of_false (by rintro ⟨_, ⟨⟩⟩) ?_⟩
    rintro ⟨-, _, ⟨⟩, -⟩
  | returns n =>
    obtain ⟨hholds, hfailed⟩ := leads_sends (p := p) hsession (.mse n n.result.stream)
    refine ⟨hholds, hfailed.trans (iff_of_false id ?_)⟩
    rintro ⟨-, _, ⟨⟩, -⟩
  | raises e =>
    obtain ⟨hholds, hfailed⟩ := leads_fallsBack (p := p) hsession (.mse e)
    refine ⟨hholds, hfailed.trans (and_congr_right fun _ => ?_)⟩
    constructor
    · exact fun h => ⟨e, rfl, h⟩
    · rintro ⟨_, ⟨⟩, h⟩
      exact h

theorem leads_loses (hsession : a.session = s) : Leads p s a.loses False := by
  obtain ⟨hholds, hfailed⟩ := leads_raises (p := p) (s := s) (a := { a with tcp := .closed })
    (e := .lost) hsession (by rintro _ ⟨⟩)
  exact ⟨hholds, hfailed.trans (iff_of_false (by rintro ⟨⟩) id)⟩

end

section

variable {c : InitiatorCall}

def Answers (policy : EncryptionPolicy) (o : InitiatorOutcome) : Prop :=
  (∃ st, o = .waits st) ∨ (∃ e, o = .raises e ∧ isConnectionError e = true) ∨
    ∃ enc dec cryptoSelect data, o = initiatorResult policy enc dec cryptoSelect data

theorem readPadD_answers {policy : EncryptionPolicy} (enc dec : RC4) (cryptoSelect padDLen : ℕ)
    (data : Bytes) : Answers policy (readPadD policy enc dec cryptoSelect padDLen data) := by
  unfold readPadD
  split_ifs
  · exact Or.inl ⟨_, rfl⟩
  · exact Or.inr (Or.inr ⟨_, _, _, _, rfl⟩)

theorem readResponse_answers {policy : EncryptionPolicy} (enc dec : RC4) (data : Bytes) :
    Answers policy (readResponse policy enc dec data) := by
  unfold readResponse
  dsimp only
  split_ifs
  · exact Or.inl ⟨_, rfl⟩
  · exact Or.inr (Or.inl ⟨_, rfl, rfl⟩)
  · exact readPadD_answers _ _ _ _ _

theorem scanForVc_answers (secret : Bytes) (enc : RC4) (scanBuf : Bytes) :
    Answers c.policy (scanForVc c secret enc scanBuf) := by
  unfold scanForVc
  dsimp only
  split
  · exact readResponse_answers _ _ _
  · split_ifs
    · exact Or.inr (Or.inl ⟨_, rfl, rfl⟩)
    · exact Or.inl ⟨_, rfl⟩

theorem feed_answers (st : Initiating) (b : Bytes) :
    Answers c.policy ((mseInitiate c).feed st b).2 := by
  cases st with
  | publicKey => exact Or.inl ⟨_, rfl⟩
  | scanning secret enc scanBuf => exact scanForVc_answers _ _ _
  | header enc dec data => exact readResponse_answers _ _ _
  | padding enc dec cryptoSelect padDLen data => exact readPadD_answers _ _ _ _ _

/-- With encryption forced, only the choice of another method raises what is no `ConnectionError`. -/
theorem initiatorResult_raises_iff {enc dec : RC4} {cryptoSelect : ℕ} {data : Bytes} :
    (∃ e, initiatorResult .forced enc dec cryptoSelect data = .raises e ∧
      isConnectionError e = false) ↔ cryptoSelect ≠ cryptoRc4 := by
  unfold initiatorResult
  dsimp only
  split_ifs with hrc4 hdisabled hplain hforced
  · cases hdisabled
  · exact iff_of_false (by rintro ⟨_, ⟨⟩, -⟩) (not_not_intro hrc4)
  · exact iff_of_true ⟨_, rfl, rfl⟩ hrc4
  · exact absurd rfl hforced
  · exact iff_of_true ⟨_, rfl, rfl⟩ hrc4

theorem feed_raises_iff (hforced : c.policy = .forced) (st : Initiating) (b : Bytes) :
    (∃ e, ((mseInitiate c).feed st b).2 = .raises e ∧ isConnectionError e = false) ↔
      ∃ cryptoSelect, Selects c st b cryptoSelect ∧ cryptoSelect ≠ cryptoRc4 := by
  constructor
  · rintro ⟨e, he, hother⟩
    rcases feed_answers (c := c) st b with ⟨st', hwaits⟩ | ⟨e', he', hconnection⟩ | hresult
    · cases hwaits.symm.trans he
    · cases he'.symm.trans he
      cases hconnection.symm.trans hother
    · obtain ⟨enc, dec, cryptoSelect, data, hresult⟩ := hresult
      refine ⟨cryptoSelect, ⟨enc, dec, data, hresult⟩, ?_⟩
      rw [hforced] at hresult
      exact initiatorResult_raises_iff.mp ⟨e, hresult.symm.trans he, hother⟩
  · rintro ⟨cryptoSelect, ⟨enc, dec, data, hresult⟩, hne⟩
    rw [hresult, hforced]
    exact initiatorResult_raises_iff.mpr hne

theorem eof_raises_iff (st : Initiating) :
    (∃ e, (mseInitiate c).eof st = .raises e ∧ isConnectionError e = false) ↔ st = .publicKey := by
  cases st with
  | publicKey => exact iff_of_true ⟨_, rfl, rfl⟩ rfl
  | scanning _ _ _ | header _ _ _ | padding _ _ _ _ _ =>
    refine iff_of_false ?_ (by rintro ⟨⟩)
    rintro ⟨_, ⟨⟩, ⟨⟩⟩

end

theorem readexactlyLoop_goes_on (enc dec : RC4) (buffer : Bytes) (n : ℕ) (e : ReadError) :
    readexactlyLoop enc dec buffer n ≠ .raises e := by
  unfold readexactlyLoop
  split_ifs
  · rintro ⟨⟩
  · rintro ⟨⟩

theorem startRead_goes_on (stream : MSEStream) (n : ℕ) (e : ReadError) :
    startRead stream (.readexactly n) ≠ .raises e := by
  cases stream with
  | encrypted enc dec buffer => exact readexactlyLoop_goes_on _ _ _ _ _
  | plaintext => rintro ⟨⟩

theorem feed_goes_on (stream : PeerStream) (b : Bytes) (e : ReadError) :
    (reads.feed (handshakeRead stream) b).2 ≠ .raises e := by
  unfold handshakeRead
  cases stream.base with
  | encrypted enc dec buffer => exact readexactlyLoop_goes_on _ _ _ _ _
  | plaintext => rintro ⟨⟩

theorem eof_raises (stream : PeerStream) : reads.eof (handshakeRead stream) = .raises .incompleteRead := by
  unfold handshakeRead
  cases stream.base <;> rfl

section

variable {p : Peer} {s : Session} {a a' : Attempt} {arrival : Arrival}

theorem Leads.congr {bad bad' : Prop} (h : Leads p s a bad) (hbad : bad ↔ bad') :
    Leads p s a bad' := ⟨h.holds, h.failed_iff.trans hbad⟩

theorem leads_opens (hsession : a.session = s) : Leads p s (a.opens p) False := by
  unfold Attempt.opens
  split_ifs
  · exact ⟨hsession, iff_of_false (by rintro ⟨_, ⟨⟩⟩) id⟩
  · exact leads_sends (a := { a with tcp := .established }) hsession .raw

theorem leads_segment (hsession : a.session = s) (st : Initiating) (b : Bytes) :
    Leads p s (a.initiates p ((mseInitiate p.call.mse).feed st b).2)
      (¬ (p.call.encryption = .forced →
        ∀ cryptoSelect, Selects p.call.mse st b cryptoSelect → cryptoSelect = cryptoRc4)) := by
  refine (leads_initiates hsession _).congr ?_
  rw [Classical.not_imp]
  refine and_congr_right fun hforced => ?_
  rw [feed_raises_iff hforced]
  simp only [not_forall, exists_prop, ne_eq]

/-- An arrival leads on, or to the failure of the call exactly if it is not harmless. -/
theorem step_leads (hholds : Holds p s a) (h : step p a arrival = some a') :
    Leads p s a' (¬ Harmless p a arrival) := by
  obtain ⟨stage, session, tcp⟩ := a
  cases stage with
  | opening =>
    obtain ⟨hsession, htcp⟩ := hholds
    cases arrival with
    | opened =>
      obtain rfl := Option.some.inj h
      exact (leads_opens hsession).congr not_true.symm
    | refused =>
      obtain rfl := Option.some.inj h
      exact (leads_raises hsession fun _ => htcp).congr (by simp [Raised.caught, Harmless])
    | timedOut =>
      obtain rfl := Option.some.inj h
      exact (leads_raises hsession fun _ => htcp).congr (by simp [Raised.caught, Harmless])
    | _ => cases h
  | initiating st =>
    cases arrival with
    | segment b =>
      unfold step at h
      dsimp only at h
      split_ifs at h
      obtain rfl := Option.some.inj h
      cases st <;> exact leads_segment hholds _ b
    | eof =>
      obtain rfl := Option.some.inj h
      refine (leads_initiates hholds _).congr ?_
      rw [eof_raises_iff]
      cases st <;> simp [Harmless]
    | timedOut =>
      obtain rfl := Option.some.inj h
      refine (leads_fallsBack hholds _).congr ?_
      cases st <;> simp [Harmless, Raised.caught]
    | lost =>
      obtain rfl := Option.some.inj h
      refine (leads_loses hholds).congr ?_
      cases st <;> exact not_true.symm
    | _ => cases h
  | sending stream =>
    cases arrival with
    | drained =>
      obtain rfl := Option.some.inj h
      exact leads_receives hholds stream (startRead_goes_on _ _)
    | lost =>
      obtain rfl := Option.some.inj h
      exact (leads_loses hholds).congr not_true.symm
    | _ => cases h
  | receiving stream =>
    cases arrival with
    | segment b =>
      unfold step at h
      dsimp only at h
      split_ifs at h
      obtain rfl := Option.some.inj h
      exact leads_receives hholds stream (feed_goes_on stream b)
    | eof =>
      obtain rfl := Option.some.inj h
      rw [eof_raises]
      exact (leads_raises hholds (by rintro ⟨⟩)).congr (iff_of_true rfl id)
    | lost =>
      obtain rfl := Option.some.inj h
      exact (leads_loses hholds).congr not_true.symm
    | _ => cases h
  | closing expected got =>
    obtain ⟨hsession, htcp⟩ := hholds
    cases arrival with
    | closed =>
      obtain rfl := Option.some.inj h
      exact (leads_raises hsession (by rintro ⟨⟩)).congr (iff_of_true rfl id)
    | lost =>
      obtain rfl := Option.some.inj h
      exact (leads_loses hsession).congr not_true.symm
    | _ => cases h
  | emitting =>
    cases arrival with
    | emitted =>
      obtain rfl := Option.some.inj h
      exact ⟨Or.inl hholds, iff_of_false (by rintro ⟨_, ⟨⟩⟩) (not_not_intro trivial)⟩
    | _ => cases h
  | ended raised => cases arrival <;> cases h

theorem run_failed {e : Raised} {arrivals : List Arrival} (hstage : a.stage = .ended (some e))
    (hrun : run p a arrivals = some a') : a' = a := by
  cases arrivals with
  | nil => exact (Option.some.inj hrun).symm
  | cons arrival rest =>
    obtain ⟨next, hstep, -⟩ := Option.bind_eq_some_iff.mp hrun
    unfold step at hstep
    rw [hstage] at hstep
    cases arrival <;> cases hstep

theorem run_holds (hholds : Holds p s a) {arrivals : List Arrival}
    (hrun : run p a arrivals = some a') : Holds p s a' := by
  induction arrivals generalizing a with
  | nil =>
    obtain rfl := Option.some.inj hrun
    exact hholds
  | cons arrival rest ih =>
    obtain ⟨next, hstep, hrest⟩ := Option.bind_eq_some_iff.mp hrun
    exact ih (step_leads hholds hstep).holds hrest

theorem harmlessRun_cons {rest : List Arrival} (h : step p a arrival = some a') :
    HarmlessRun p a (arrival :: rest) ↔ Harmless p a arrival ∧ HarmlessRun p a' rest := by
  rw [HarmlessRun, h]
  exact and_congr_right fun _ => ⟨fun hall => hall a' rfl, fun hrest _ hsame => by
    obtain rfl := Option.some.inj hsame
    exact hrest⟩

/-- A run that rests has returned exactly if all its arrivals were harmless. -/
theorem returned_iff (hholds : Holds p s a) (hgoes : ¬ a.Failed) {arrivals : List Arrival}
    (hrun : run p a arrivals = some a') (hrests : a'.Rests) :
    a'.stage = .ended none ↔ HarmlessRun p a arrivals := by
  induction arrivals generalizing a with
  | nil =>
    obtain rfl := Option.some.inj hrun
    rw [HarmlessRun]
    rcases hrests with ⟨raised, hended⟩ | ⟨stream, hreceiving⟩
    · cases raised with
      | none =>
        refine iff_of_true hended fun stream hreceiving => ?_
        cases hended.symm.trans hreceiving
      | some e => exact absurd ⟨e, hended⟩ hgoes
    · refine iff_of_false (fun hended => ?_) fun hsilent => hsilent stream hreceiving
      cases hended.symm.trans hreceiving
  | cons arrival rest ih =>
    obtain ⟨next, hstep, hrest⟩ := Option.bind_eq_some_iff.mp hrun
    obtain ⟨hnext, hfailed⟩ := step_leads hholds hstep
    by_cases hharmless : Harmless p a arrival
    · rw [ih hnext (fun h => hfailed.mp h hharmless) hrest, harmlessRun_cons hstep]
      exact (and_iff_right hharmless).symm
    · obtain ⟨e, hended⟩ := hfailed.mpr hharmless
      obtain rfl := run_failed hended hrest
      refine iff_of_false (fun h => ?_) fun h => hharmless ((harmlessRun_cons hstep).mp h).1
      cases h.symm.trans hended

end

section

variable {p : Peer} {a a' : Attempt}

def Agrees (a : Attempt) : Next Connecting ConnectError → Prop
  | .waits (.initiating st) => a.stage = .initiating st
  | .waits (.receivingHandshake stream _) => a.stage = .receiving stream
  | .runs _ => a.stage = .emitting
  | .ends (.infoHashMismatch expected got) => a.stage = .closing expected got
  | .ends (.mse e) => a.stage = (a.raises (.mse e)).stage
  | .ends (.handshake e) => a.stage = (a.raises (.handshake e)).stage
  | .ends .connectionLost => a.stage = (a.raises .incompleteRead).stage
  | .ends .cancelled => False

def Attempt.drained (p : Peer) (a : Attempt) : Attempt :=
  match a.stage with
  | .sending stream => a.receives p stream (startRead stream.base (.readexactly handshakeLength))
  | _ => a

theorem receives_agrees (stream : PeerStream) (o : ReadOutcome) :
    Agrees (a.receives p stream o) (receiveHandshake p.call stream o) := by
  cases o with
  | waits r => rfl
  | raises e => rfl
  | returns given =>
    obtain ⟨data, after⟩ := given
    unfold Attempt.receives receiveHandshake
    dsimp only
    cases Handshake.fromBytes data with
    | error e => rfl
    | ok hs =>
      dsimp only
      split_ifs
      · rfl
      · rfl

theorem sends_agrees (stream : PeerStream) :
    Agrees ((a.sends p stream).drained p) (sendHandshake p.call stream).2 := receives_agrees _ _

theorem initiates_agrees (out : Bytes) (o : InitiatorOutcome) :
    Agrees ((a.initiates p o).drained p) (initiated p.call out o).2 := by
  cases o with
  | waits st => rfl
  | returns n => exact sends_agrees _
  | raises e =>
    unfold Attempt.initiates Attempt.fallsBack initiated fallBack
    dsimp only
    split_ifs
    · rfl
    · exact sends_agrees _

theorem opens_agrees : Agrees ((a.opens p).drained p) (connect p.call).start.2 := by
  unfold Attempt.opens connect
  dsimp only
  split_ifs
  · rfl
  · exact sends_agrees _

structure Seen (p : Peer) (a : Attempt) (r : PeerRegistry.Registry) (q : PeerRegistry.Call) :
    Prop where
  addr : q.addr = p.addr
  conn : q.conn = p.conn
  peers : r.peers = a.session.peers
  rates : r.rates = a.session.rates
  point : match a.stage with
    | .emitting => q.point = .emitting
    | .ended _ => q.point = .created ∨ q.point = .ended
    | _ => q.point = .connecting

def Followed (p : Peer) (a' : Attempt) (r : PeerRegistry.Registry) (q : PeerRegistry.Call) : Prop :=
  Seen p a' r q ∨ ∃ act r' q', PeerRegistry.program act r q = some (r', q') ∧ Seen p a' r' q'

variable {r : PeerRegistry.Registry} {q : PeerRegistry.Call}

theorem proceeds_connecting (hpoint : q.point = .connecting) :
    PeerRegistry.program .proceeds r q = some
      ({ r with peers := Function.update r.peers q.addr (some q.conn) }, q.goto .emitting) := by
  simp only [PeerRegistry.program, hpoint]

theorem proceeds_emitting (hpoint : q.point = .emitting) :
    PeerRegistry.program .proceeds r q = some
      ({ r with rates := Function.update r.rates q.addr (some q.conn) }, q.goto .created) := by
  simp only [PeerRegistry.program, hpoint]

theorem followed_raises (h : Seen p a r q) (hpoint : q.point = .connecting) (e : Raised) :
    Followed p (a.raises e) r q := by
  refine Or.inr ⟨.fails, r, q.goto .ended, ?_, h.addr, h.conn, h.peers, h.rates, Or.inr rfl⟩
  simp only [PeerRegistry.program, hpoint]

theorem followed_receives (h : Seen p a r q) (hpoint : q.point = .connecting)
    (stream : PeerStream) (o : ReadOutcome) : Followed p (a.receives p stream o) r q := by
  cases o with
  | waits given => exact Or.inl ⟨h.addr, h.conn, h.peers, h.rates, hpoint⟩
  | raises e => exact followed_raises h hpoint _
  | returns given =>
    obtain ⟨data, after⟩ := given
    unfold Attempt.receives
    dsimp only
    cases Handshake.fromBytes data with
    | error e => exact followed_raises h hpoint _
    | ok hs =>
      dsimp only
      split_ifs
      · exact Or.inl ⟨h.addr, h.conn, h.peers, h.rates, hpoint⟩
      · refine Or.inr ⟨.proceeds, _, _, proceeds_connecting hpoint, h.addr, h.conn, ?_, h.rates, rfl⟩
        dsimp only
        rw [h.addr, h.conn, h.peers]
        rfl

theorem followed_fallsBack (h : Seen p a r q) (hpoint : q.point = .connecting) (e : Raised) :
    Followed p (a.fallsBack p e) r q := by
  unfold Attempt.fallsBack
  split_ifs
  · exact followed_raises (a := { a with tcp := .closed }) ⟨h.addr, h.conn, h.peers, h.rates, h.point⟩
      hpoint e
  · exact Or.inl ⟨h.addr, h.conn, h.peers, h.rates, hpoint⟩

theorem followed_initiates (h : Seen p a r q) (hpoint : q.point = .connecting)
    (o : InitiatorOutcome) : Followed p (a.initiates p o) r q := by
  cases o with
  | waits st => exact Or.inl ⟨h.addr, h.conn, h.peers, h.rates, hpoint⟩
  | returns n => exact Or.inl ⟨h.addr, h.conn, h.peers, h.rates, hpoint⟩
  | raises e => exact followed_fallsBack h hpoint _

theorem followed_loses (h : Seen p a r q) (hpoint : q.point = .connecting) :
    Followed p a.loses r q :=
  followed_raises (a := { a with tcp := .closed }) ⟨h.addr, h.conn, h.peers, h.rates, h.point⟩
    hpoint .lost

/-- Every step of the call is one of the registry's calls, or is not seen there. -/
theorem step_followed {arrival : Arrival} (h : Seen p a r q) (hstep : step p a arrival = some a') :
    Followed p a' r q := by
  obtain ⟨stage, session, tcp⟩ := a
  have hpoint := h.point
  cases stage with
  | opening =>
    cases arrival with
    | opened =>
      obtain rfl := Option.some.inj hstep
      unfold Attempt.opens
      split_ifs
      · exact Or.inl ⟨h.addr, h.conn, h.peers, h.rates, hpoint⟩
      · exact Or.inl ⟨h.addr, h.conn, h.peers, h.rates, hpoint⟩
    | refused | timedOut =>
      obtain rfl := Option.some.inj hstep
      exact followed_raises h hpoint _
    | _ => cases hstep
  | initiating st =>
    cases arrival with
    | segment b =>
      unfold step at hstep
      dsimp only at hstep
      split_ifs at hstep
      obtain rfl := Option.some.inj hstep
      exact followed_initiates h hpoint _
    | eof =>
      obtain rfl := Option.some.inj hstep
      exact followed_initiates h hpoint _
    | timedOut =>
      obtain rfl := Option.some.inj hstep
      exact followed_fallsBack h hpoint _
    | lost =>
      obtain rfl := Option.some.inj hstep
      exact followed_loses h hpoint
    | _ => cases hstep
  | sending stream =>
    cases arrival with
    | drained =>
      obtain rfl := Option.some.inj hstep
      exact followed_receives h hpoint _ _
    | lost =>
      obtain rfl := Option.some.inj hstep
      exact followed_loses h hpoint
    | _ => cases hstep
  | receiving stream =>
    cases arrival with
    | segment b =>
      unfold step at hstep
      dsimp only at hstep
      split_ifs at hstep
      obtain rfl := Option.some.inj hstep
      exact followed_receives h hpoint _ _
    | eof =>
      obtain rfl := Option.some.inj hstep
      exact followed_receives h hpoint _ _
    | lost =>
      obtain rfl := Option.some.inj hstep
      exact followed_loses h hpoint
    | _ => cases hstep
  | closing expected got =>
    cases arrival with
    | closed =>
      obtain rfl := Option.some.inj hstep
      exact followed_raises h hpoint _
    | lost =>
      obtain rfl := Option.some.inj hstep
      exact followed_loses h hpoint
    | _ => cases hstep
  | emitting =>
    cases arrival with
    | emitted =>
      obtain rfl := Option.some.inj hstep
      refine Or.inr ⟨.proceeds, _, _, proceeds_emitting hpoint, h.addr, h.conn, h.peers, ?_,
        Or.inl rfl⟩
      dsimp only
      rw [h.addr, h.conn, h.rates]
      rfl
    | _ => cases hstep
  | ended raised => cases arrival <;> cases hstep

end

theorem start_holds (p : Peer) (s : Session) :
    Holds p s (start true true p s) ∧ ¬ (start true true p s).Failed := by
  rw [start, if_neg (by decide), if_neg (by decide)]
  split_ifs
  · exact ⟨Or.inr ⟨rfl, by rintro ⟨⟩⟩, by rintro ⟨_, ⟨⟩⟩⟩
  · exact ⟨⟨rfl, by rintro ⟨⟩⟩, by rintro ⟨_, ⟨⟩⟩⟩

/-- `add_peer` is all or nothing exactly in the runs of harmless arrivals. -/
theorem all_or_nothing_iff (p : Peer) (s : Session) {arrivals : List Arrival} {a : Attempt}
    (hrun : run p (start true true p s) arrivals = some a) (hrests : a.Rests) :
    AllOrNothing p s a ↔ HarmlessRun p (start true true p s) arrivals := by
  obtain ⟨hholds, hgoes⟩ := start_holds p s
  rw [← returned_iff hholds hgoes hrun hrests]
  constructor
  · exact AllOrNothing.returned
  · intro hended
    refine ⟨hended, ?_⟩
    have hleft := run_holds hholds hrun
    unfold Holds at hleft
    rwa [hended] at hleft

def plainPeer : Peer :=
  ⟨⟨[97], 6881⟩, 7, { ForcedEncryption.forcedOutgoing with encryption := .disabled }⟩

def noPeers : Session := ⟨fun _ => none, fun _ => none, [], []⟩

theorem all_or_nothing_answered : ∃ a,
    run plainPeer (start true true plainPeer noPeers)
      [.opened, .drained, .segment ForcedEncryption.theirHandshake.toBytes, .emitted] = some a ∧
      a.Rests ∧ AllOrNothing plainPeer noPeers a ∧ a.session.tasks = [7] := by
  have hparse : Handshake.fromBytes ForcedEncryption.theirHandshake.toBytes =
      .ok ForcedEncryption.theirHandshake := by decide
  obtain ⟨a, hrun, hrests, htasks⟩ : ∃ a, run plainPeer (start true true plainPeer noPeers)
      [.opened, .drained, .segment ForcedEncryption.theirHandshake.toBytes, .emitted] = some a ∧
      a.Rests ∧ a.session.tasks = [7] := ⟨_, rfl, Or.inl ⟨none, rfl⟩, rfl⟩
  refine ⟨a, hrun, hrests, (all_or_nothing_iff plainPeer noPeers hrun hrests).mpr ?_, htasks⟩
  have hanswered : step plainPeer ⟨.receiving .raw, noPeers, .established⟩
      (.segment ForcedEncryption.theirHandshake.toBytes) =
        some (Attempt.connects plainPeer ⟨.receiving .raw, noPeers, .established⟩) := rfl
  refine (harmlessRun_cons rfl).mpr ⟨trivial, (harmlessRun_cons rfl).mpr ⟨?_,
    (harmlessRun_cons hanswered).mpr ⟨?_, (harmlessRun_cons rfl).mpr ⟨trivial, ?_⟩⟩⟩⟩
  · rintro _ _ ⟨⟩
  · rintro _ _ ⟨⟩
    exact ⟨_, hparse⟩
  · rintro _ ⟨⟩

/-- The peer closes its side where it should send its handshake: the error is not caught, and our side
stays open. -/
theorem eof_escapes : ∃ a,
    run plainPeer (start true true plainPeer noPeers) [.opened, .drained, .eof] = some a ∧
      a.Rests ∧ a.stage = .ended (some .incompleteRead) ∧ a.tcp = .established ∧
      ¬ AllOrNothing plainPeer noPeers a := by
  refine ⟨_, rfl, Or.inl ⟨_, rfl⟩, rfl, rfl, fun h => ?_⟩
  cases h.returned

end PeerAdmission
