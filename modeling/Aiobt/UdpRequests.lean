import Aiobt.Futures
import Aiobt.InterleavedProcesses
import Aiobt.UdpPackets

/-! # Requests to a UDP tracker

`_UDPTrackerProtocol`, `_udp_request`, `udp_connect` and `udp_announce` of `tracker.py`, with any
number of calls over one protocol and any datagrams at any time. -/
namespace UdpRequests

open ByteStrings BigEndian StructFormats TrackerProtocol UdpPackets Futures InterleavedProcesses

inductive Exc where
  /-- `TimeoutError`, which an `OSError` of the socket may be as well. -/
  | timeout
  | os (code : ℕ)
  | runtime
  deriving DecidableEq, Repr

inductive Answer where
  | result (data : Bytes)
  | exception (e : Exc)
  | cancelled
  deriving DecidableEq, Repr

structure Protocol where
  connected : Bool
  waiters : List (ℕ × ℕ)
  futures : Store ℕ Answer
  received : List Bytes

namespace Protocol

variable (p : Protocol)

def waiter (transactionId : ℕ) : Option ℕ :=
  (p.waiters.find? fun w => w.1 = transactionId).map Prod.snd

def settle (fut : ℕ) (answer : Answer) : Protocol :=
  { p with futures := p.futures.settlePending fut answer }

def datagramReceived (data : Bytes) : Protocol :=
  let p := { p with received := p.received ++ [data] }
  if data.length < 8 then p
  else match p.waiter (fromBytes (slice data 4 8)) with
    | none => p
    | some fut => p.settle fut (.result data)

def errorReceived (e : Exc) : Protocol :=
  p.waiters.foldl (fun p w => p.settle w.2 (.exception e)) p

/-- `OSError("UDP transport closed")` where no exception is given. -/
def connectionLost (e : Option Exc) : Protocol := p.errorReceived (e.getD (.os 0))

def expect (transactionId : ℕ) : Protocol × ℕ :=
  ({ p with
      futures := (p.futures.create transactionId).1
      waiters := (p.waiters.filter fun w => w.1 ≠ transactionId) ++
        [(transactionId, (p.futures.create transactionId).2)] },
    (p.futures.create transactionId).2)

def cancel (transactionId : ℕ) : Protocol :=
  match p.waiter transactionId with
  | none => p
  | some fut =>
    { p with waiters := p.waiters.filter fun w => w.1 ≠ transactionId }.settle fut .cancelled

end Protocol

def initialProtocol : Protocol := ⟨false, [], Store.empty, []⟩

inductive RequestError where
  | exc (e : Exc)
  | cancelled
  | noResponse (attempts : ℕ)
  deriving DecidableEq, Repr

inductive RequestStage where
  | trying (n : ℕ)
  | waiting (n fut : ℕ)
  /-- The timeout of `wait_for` has cancelled the wait, and the call has not run since. -/
  | expired (n : ℕ)
  | returned (data : Bytes)
  | raised (e : RequestError)
  deriving DecidableEq, Repr

structure Request where
  payload : Bytes
  transactionId : ℕ
  maxRetries : ℕ
  sent : ℕ
  stage : RequestStage
  deriving DecidableEq, Repr

def attempt (p : Protocol) (r : Request) (n : ℕ) : Protocol × Request :=
  if r.maxRetries < n then (p, { r with stage := .raised (.noResponse (r.maxRetries + 1)) })
  else if p.connected then
    ((p.expect r.transactionId).1,
      { r with sent := r.sent + 1, stage := .waiting n (p.expect r.transactionId).2 })
  else
    ((p.expect r.transactionId).1.cancel r.transactionId, { r with stage := .raised (.exc .runtime) })

def timesOut (p : Protocol) (r : Request) (n : ℕ) : Protocol × Request :=
  attempt (p.cancel r.transactionId) r (n + 1)

/-- A waiting call runs on, with what its future is done with. A `CancelledError` is no
`Exception`. -/
def answered (p : Protocol) (r : Request) (n : ℕ) : Answer → Protocol × Request
  | .result data => (p, { r with stage := .returned data })
  | .exception .timeout => timesOut p r n
  | .exception e => (p.cancel r.transactionId, { r with stage := .raised (.exc e) })
  | .cancelled => (p, { r with stage := .raised .cancelled })

inductive Turn where
  | resumes
  /-- The timer of `wait_for` runs out, also where the future is done already. -/
  | expires
  | interrupted
  deriving DecidableEq, Repr

def Request.turn (p : Protocol) (r : Request) : Turn → Option (Protocol × Request)
  | .resumes =>
    match r.stage with
    | .waiting n fut => (p.futures.resultOf fut).map (answered p r n)
    | .expired n => some (timesOut p r n)
    | _ => none
  | .expires =>
    match r.stage with
    | .waiting n fut => some (p.settle fut .cancelled, { r with stage := .expired n })
    | _ => none
  | .interrupted =>
    match r.stage with
    | .waiting _ fut => some (p.settle fut .cancelled, { r with stage := .raised .cancelled })
    | .expired _ => some (p, { r with stage := .raised .cancelled })
    | _ => none

def udpMagic : ℤ := 0x41727101980

def connectPayload (transactionId : ℕ) : Option Bytes :=
  pack [.unsigned 8, .unsigned 4, .unsigned 4] [.int udpMagic, .int 0, .int transactionId]

inductive CallError where
  | request (e : RequestError)
  | tracker (e : TrackerError)
  | struct

/-- What `udp_announce` does behind `udp_connect`; the transaction id is drawn then. -/
structure Announce where
  request : AnnounceRequest
  ipAddress : ℤ
  transactionId : UInt32

inductive CallStage where
  | starting
  | connecting (r : Request)
  | connected (r : Request) (connectionId : ℕ)
  | announcing (a : Announce) (connect r : Request)
  | finished (requests : List Request) (outcome : Except CallError AnnounceResponse)

structure Call where
  transactionId : UInt32
  announce : Option Announce
  maxRetries : ℕ
  stage : CallStage

def Call.requests (t : Call) : List Request :=
  match t.stage with
  | .starting => []
  | .connecting r => [r]
  | .connected r _ => [r]
  | .announcing _ connect r => [connect, r]
  | .finished requests _ => requests

def Call.response (t : Call) : Option AnnounceResponse :=
  match t.stage with
  | .finished _ (.ok response) => some response
  | _ => none

/-- `_udp_request` with the default of the call, up to its first await. -/
def Call.begins (p : Protocol) (t : Call) (payload : Bytes) (transactionId : ℕ) :
    Protocol × Request :=
  attempt p ⟨payload, transactionId, t.maxRetries, 0, .trying 0⟩ 0

def Call.announces (t : Call) (a : Announce) (connect r : Request) : Call :=
  match r.stage with
  | .returned data =>
    { t with
      stage := .finished [connect, r]
        ((parseUdpAnnounceResponse data a.transactionId.toNat).mapError .tracker) }
  | .raised e => { t with stage := .finished [connect, r] (.error (.request e)) }
  | _ => { t with stage := .announcing a connect r }

def Call.sendsAnnounce (p : Protocol) (t : Call) (a : Announce) (connect : Request) :
    Option Bytes → Protocol × Call
  | none => (p, { t with stage := .finished [connect] (.error .struct) })
  | some payload =>
    let next := t.begins p payload a.transactionId.toNat
    (next.1, t.announces a connect next.2)

def Call.connects (p : Protocol) (t : Call) (r : Request) (connectionId : ℕ) : Protocol × Call :=
  match t.announce with
  | none => (p, { t with stage := .connected r connectionId })
  | some a =>
    t.sendsAnnounce p a r
      (announcePayload a.request connectionId a.transactionId.toNat a.ipAddress)

def Call.asks (p : Protocol) (t : Call) (r : Request) : Protocol × Call :=
  match r.stage with
  | .returned data =>
    match parseConnectResponse data t.transactionId.toNat with
    | .error e => (p, { t with stage := .finished [r] (.error (.tracker e)) })
    | .ok connectionId => t.connects p r connectionId
  | .raised e => (p, { t with stage := .finished [r] (.error (.request e)) })
  | _ => (p, { t with stage := .connecting r })

def Call.sendsConnect (p : Protocol) (t : Call) : Option Bytes → Protocol × Call
  | none => (p, { t with stage := .finished [] (.error .struct) })
  | some payload =>
    let next := t.begins p payload t.transactionId.toNat
    t.asks next.1 next.2

def Call.starts (p : Protocol) (t : Call) : Protocol × Call :=
  t.sendsConnect p (connectPayload t.transactionId.toNat)

inductive Party where
  | network
  | call (t : Call)

/-- A failing `sendto` reports its error as well, and a call closes the transport at its end. -/
inductive Action where
  | connectionMade
  | datagram (data : Bytes)
  | error (e : Exc)
  | connectionLost (e : Option Exc)
  | starts
  | turn (turn : Turn)

def program : Program Protocol Party Action
  | .connectionMade, p, .network => some ({ p with connected := true }, .network)
  | .datagram data, p, .network => some (p.datagramReceived data, .network)
  | .error e, p, .network => some (p.errorReceived e, .network)
  | .connectionLost e, p, .network => some (p.connectionLost e, .network)
  | .starts, p, .call t =>
    match t.stage with
    | .starting =>
      let next := t.starts p
      some (next.1, .call next.2)
    | _ => none
  | .turn turn, p, .call t =>
    match t.stage with
    | .connecting r => (r.turn p turn).map fun next =>
      let next := t.asks next.1 next.2
      (next.1, .call next.2)
    | .announcing a connect r => (r.turn p turn).map fun next =>
      (next.1, .call (t.announces a connect next.2))
    | _ => none
  | _, _, _ => none

def Spawns (_ : Config Protocol Party) : Move Party Action → Prop
  | .spawn (.call t) => t.stage = .starting
  | .spawn .network => False
  | .act _ _ => True

def initial : Config Protocol Party := ⟨initialProtocol, [.network]⟩

/-- A datagram that came in and carries this transaction id. -/
structure Answers (received : List Bytes) (transactionId : ℕ) (data : Bytes) : Prop where
  came : data ∈ received
  long : 8 ≤ data.length
  carries : fromBytes (slice data 4 8) = transactionId

def Suits (received : List Bytes) (transactionId : ℕ) (answer : Answer) : Prop :=
  ∀ data, answer = .result data → Answers received transactionId data

structure Good (p : Protocol) : Prop where
  sound : Sound (Suits p.received) p.futures
  waiters : ∀ w ∈ p.waiters, p.futures.keyOf w.2 = some w.1

structure Later (p p' : Protocol) : Prop where
  futures : Grows p.futures p'.futures
  received : p.received ⊆ p'.received

theorem Later.refl (p : Protocol) : Later p p := ⟨Grows.refl _, List.Subset.refl _⟩

theorem Later.trans {p p' p'' : Protocol} (h : Later p p') (h' : Later p' p'') : Later p p'' :=
  ⟨h.futures.trans h'.futures, List.Subset.trans h.received h'.received⟩

theorem Answers.later {p p' : Protocol} (h : Later p p') {transactionId : ℕ} {data : Bytes}
    (ha : Answers p.received transactionId data) : Answers p'.received transactionId data :=
  ⟨h.received ha.came, ha.long, ha.carries⟩

structure Keeps (p p' : Protocol) : Prop where
  good : Good p'
  later : Later p p'

section

variable {p p' p'' : Protocol} {fut transactionId : ℕ} {answer : Answer}

theorem Good.keeps (h : Good p) : Keeps p p := ⟨h, Later.refl p⟩

theorem Keeps.trans (h : Keeps p p') (h' : Keeps p' p'') : Keeps p p'' :=
  ⟨h'.good, h.later.trans h'.later⟩

theorem Good.settle (h : Good p) (hanswer : ∀ k, p.futures.keyOf fut = some k →
    Suits p.received k answer) : Keeps p (p.settle fut answer) := by
  have hgrows := grows_settlePending p.futures fut answer
  exact ⟨⟨h.sound.settlePending hanswer, fun w hw => hgrows.keys _ _ (h.waiters w hw)⟩,
    hgrows, List.Subset.refl _⟩

theorem Good.settle_other (h : Good p) (fut : ℕ) (hother : ∀ data, answer ≠ .result data) :
    Keeps p (p.settle fut answer) :=
  h.settle fun _ _ data hdata => absurd hdata (hother data)

theorem mem_of_waiter (h : p.waiter transactionId = some fut) : (transactionId, fut) ∈ p.waiters := by
  obtain ⟨w, hfind, rfl⟩ := Option.map_eq_some_iff.mp h
  have hkey := List.find?_some hfind
  rw [decide_eq_true_eq] at hkey
  rw [← hkey]
  exact List.mem_of_find?_eq_some hfind

theorem Good.datagramReceived (h : Good p) (data : Bytes) : Keeps p (p.datagramReceived data) := by
  have hsubset : p.received ⊆ p.received ++ [data] := List.subset_append_left _ _
  have hreceived : Good { p with received := p.received ++ [data] } :=
    ⟨h.sound.mono fun k answer hsuits data' hdata =>
      ⟨hsubset (hsuits data' hdata).came, (hsuits data' hdata).long, (hsuits data' hdata).carries⟩,
      h.waiters⟩
  have hkeeps : Keeps p { p with received := p.received ++ [data] } :=
    ⟨hreceived, Grows.refl _, hsubset⟩
  unfold Protocol.datagramReceived
  dsimp only
  split_ifs with hshort
  · exact hkeeps
  · split
    · exact hkeeps
    · next fut hwaiter =>
      have hkey := hreceived.waiters _ (mem_of_waiter hwaiter)
      refine hkeeps.trans (hreceived.settle fun k hk data' hdata => ?_)
      obtain rfl := Option.some.inj (hkey.symm.trans hk)
      obtain rfl := Answer.result.inj hdata
      exact ⟨List.mem_append_right _ (List.mem_singleton_self _), Nat.le_of_not_lt hshort, rfl⟩

theorem Good.errorReceived (h : Good p) (e : Exc) : Keeps p (p.errorReceived e) := by
  have hfold : ∀ (ws : List (ℕ × ℕ)) (q : Protocol), Good q →
      Keeps q (ws.foldl (fun p w => p.settle w.2 (.exception e)) q) := by
    intro ws
    induction ws with
    | nil => exact fun q hq => hq.keeps
    | cons w ws ih =>
      intro q hq
      have hfirst : Keeps q (q.settle w.2 (.exception e)) := hq.settle_other _ (by rintro _ ⟨⟩)
      exact hfirst.trans (ih _ hfirst.good)
  exact hfold p.waiters p h

theorem Good.expect (h : Good p) (transactionId : ℕ) :
    Keeps p (p.expect transactionId).1 ∧
      (p.expect transactionId).1.futures.keyOf (p.expect transactionId).2 = some transactionId := by
  have hgrows := grows_create p.futures transactionId
  refine ⟨⟨⟨h.sound.create transactionId, fun w hw => ?_⟩, hgrows, List.Subset.refl _⟩,
    keyOf_create⟩
  rcases List.mem_append.mp hw with hold | hnew
  · exact hgrows.keys _ _ (h.waiters w (List.mem_of_mem_filter hold))
  · rw [List.mem_singleton.mp hnew]
    exact keyOf_create

theorem Good.cancel (h : Good p) (transactionId : ℕ) : Keeps p (p.cancel transactionId) := by
  unfold Protocol.cancel
  split
  · exact h.keeps
  · have hremoved : Good { p with waiters := p.waiters.filter fun w => w.1 ≠ transactionId } :=
      ⟨h.sound, fun w hw => h.waiters w (List.mem_of_mem_filter hw)⟩
    have hkeeps : Keeps p { p with waiters := p.waiters.filter fun w => w.1 ≠ transactionId } :=
      ⟨hremoved, Grows.refl _, List.Subset.refl _⟩
    exact hkeeps.trans (hremoved.settle_other _ (by rintro _ ⟨⟩))

end

/-- The payload carries the transaction id, and what the request has come to. -/
structure Tracked (p : Protocol) (r : Request) : Prop where
  small : r.transactionId < 256 ^ 4
  carries : slice r.payload 12 16 = toBytes 4 r.transactionId
  sends : r.sent ≤ r.maxRetries + 1
  stage : match r.stage with
    | .trying n => r.sent = n
    | .waiting n fut => r.sent = n + 1 ∧ p.futures.keyOf fut = some r.transactionId
    | .expired n => r.sent = n + 1
    | .returned data => Answers p.received r.transactionId data
    | .raised _ => True

section

variable {p p' : Protocol} {r r' : Request}

theorem Tracked.later (h : Tracked p r) (hlater : Later p p') : Tracked p' r := by
  obtain ⟨hsmall, hcarries, hsends, hstage⟩ := h
  refine ⟨hsmall, hcarries, hsends, ?_⟩
  cases hr : r.stage with
  | trying n => rwa [hr] at hstage
  | waiting n fut =>
    rw [hr] at hstage
    exact ⟨hstage.1, hlater.futures.keys _ _ hstage.2⟩
  | expired n => rwa [hr] at hstage
  | returned data =>
    rw [hr] at hstage
    exact Answers.later hlater hstage
  | raised e => trivial

/-- A pass sends the payload once, where there is a pass left. -/
theorem attempt_tracked (hp : Good p) (hr : Tracked p r) {n : ℕ} (hn : r.sent = n) :
    Keeps p (attempt p r n).1 ∧ Tracked (attempt p r n).1 (attempt p r n).2 ∧
      (attempt p r n).2.payload = r.payload := by
  obtain ⟨hsmall, hcarries, hsends, -⟩ := hr
  obtain ⟨hexpects, hkey⟩ := hp.expect r.transactionId
  unfold attempt
  split_ifs with hlast hconnected
  · exact ⟨hp.keeps, ⟨hsmall, hcarries, hsends, trivial⟩, rfl⟩
  · refine ⟨hexpects, ⟨hsmall, hcarries, ?_, ?_, hkey⟩, rfl⟩
    · dsimp only
      omega
    · dsimp only
      omega
  · exact ⟨hexpects.trans (hexpects.good.cancel _), ⟨hsmall, hcarries, hsends, trivial⟩, rfl⟩

theorem timesOut_tracked (hp : Good p) (hr : Tracked p r) {n : ℕ} (hn : r.sent = n + 1) :
    Keeps p (timesOut p r n).1 ∧ Tracked (timesOut p r n).1 (timesOut p r n).2 ∧
      (timesOut p r n).2.payload = r.payload := by
  have hcancels := hp.cancel r.transactionId
  obtain ⟨hkeeps, htracked, hpayload⟩ :=
    attempt_tracked hcancels.good (hr.later hcancels.later) hn
  exact ⟨hcancels.trans hkeeps, htracked, hpayload⟩

theorem answered_tracked (hp : Good p) (hr : Tracked p r) {n fut : ℕ} {answer : Answer}
    (hstage : r.stage = .waiting n fut) (hanswer : p.futures.resultOf fut = some answer) :
    Keeps p (answered p r n answer).1 ∧ Tracked (answered p r n answer).1 (answered p r n answer).2 ∧
      (answered p r n answer).2.payload = r.payload := by
  have hwaiting := hr.stage
  rw [hstage] at hwaiting
  obtain ⟨hsent, hkey⟩ := hwaiting
  cases answer with
  | result data =>
    exact ⟨hp.keeps, ⟨hr.small, hr.carries, hr.sends,
      hp.sound.suits fut _ _ hkey hanswer data rfl⟩, rfl⟩
  | exception e =>
    cases e with
    | timeout => exact timesOut_tracked hp hr hsent
    | os code => exact ⟨hp.cancel _, ⟨hr.small, hr.carries, hr.sends, trivial⟩, rfl⟩
    | runtime => exact ⟨hp.cancel _, ⟨hr.small, hr.carries, hr.sends, trivial⟩, rfl⟩
  | cancelled => exact ⟨hp.keeps, ⟨hr.small, hr.carries, hr.sends, trivial⟩, rfl⟩

/-- Whatever comes first, a turn of a request keeps it tracked. -/
theorem turn_tracked (hp : Good p) (hr : Tracked p r) {turn : Turn}
    (h : r.turn p turn = some (p', r')) :
    Keeps p p' ∧ Tracked p' r' ∧ r'.payload = r.payload := by
  have hstage := hr.stage
  cases turn with
  | resumes =>
    unfold Request.turn at h
    dsimp only at h
    split at h
    · next n fut hwaiting =>
      obtain ⟨answer, hanswer, hnext⟩ := Option.map_eq_some_iff.mp h
      have htracked := answered_tracked hp hr hwaiting hanswer
      rwa [hnext] at htracked
    · next n hexpired =>
      rw [hexpired] at hstage
      have htracked := timesOut_tracked hp hr hstage
      rwa [Option.some.inj h] at htracked
    · cases h
  | expires =>
    unfold Request.turn at h
    dsimp only at h
    split at h
    · next n fut hwaiting =>
      rw [hwaiting] at hstage
      obtain ⟨rfl, rfl⟩ := Prod.mk.inj (Option.some.inj h)
      have hkeeps : Keeps p (p.settle fut .cancelled) := hp.settle_other fut (by rintro _ ⟨⟩)
      exact ⟨hkeeps, ⟨hr.small, hr.carries, hr.sends, hstage.1⟩, rfl⟩
    · cases h
  | interrupted =>
    unfold Request.turn at h
    dsimp only at h
    split at h
    · next n fut hwaiting =>
      obtain ⟨rfl, rfl⟩ := Prod.mk.inj (Option.some.inj h)
      have hkeeps : Keeps p (p.settle fut .cancelled) := hp.settle_other fut (by rintro _ ⟨⟩)
      exact ⟨hkeeps, ⟨hr.small, hr.carries, hr.sends, trivial⟩, rfl⟩
    · obtain ⟨rfl, rfl⟩ := Prod.mk.inj (Option.some.inj h)
      exact ⟨hp.keeps, ⟨hr.small, hr.carries, hr.sends, trivial⟩, rfl⟩
    · cases h

end

/-- The third field of both payloads is the transaction id. -/
theorem carries_of_pack {format : List Field} {v₀ v₁ : Value} {values : List Value} {n : ℕ} {b : Bytes}
    (h : pack (.unsigned 8 :: .unsigned 4 :: .unsigned 4 :: format) (v₀ :: v₁ :: .int n :: values) =
      some b) : n < 256 ^ 4 ∧ slice b 12 16 = toBytes 4 n := by
  obtain ⟨first, behind, hfirst, hbehind, rfl⟩ := pack_cons h
  obtain ⟨second, last, hsecond, hlast, rfl⟩ := pack_cons hbehind
  obtain ⟨third, rest, hthird, -, rfl⟩ := pack_cons hlast
  rw [packField_nat] at hthird
  split_ifs at hthird with hsmall
  obtain rfl := Option.some.inj hthird
  have hlength : (first ++ second).length = 12 := by
    rw [List.length_append, length_packField hfirst, length_packField hsecond]
    rfl
  have hdrop : (first ++ (second ++ (toBytes 4 n ++ rest))).drop 12 = toBytes 4 n ++ rest := by
    rw [← List.append_assoc, List.drop_left' hlength]
  have hslice := slice_of_drop hdrop
  rw [length_toBytes] at hslice
  exact ⟨hsmall, hslice⟩

theorem begins_tracked {p : Protocol} {t : Call} {payload : Bytes} {transactionId : ℕ} (hp : Good p)
    (h : transactionId < 256 ^ 4 ∧ slice payload 12 16 = toBytes 4 transactionId) :
    Keeps p (t.begins p payload transactionId).1 ∧
      Tracked (t.begins p payload transactionId).1 (t.begins p payload transactionId).2 ∧
        (t.begins p payload transactionId).2.payload = payload :=
  attempt_tracked hp ⟨h.1, h.2, Nat.zero_le _, rfl⟩ rfl

def Asks (a : Announce) (r : Request) : Prop :=
  ∃ connectionId,
    announcePayload a.request connectionId a.transactionId.toNat a.ipAddress = some r.payload

structure TakenFrom (t : Call) (response : AnnounceResponse) (a : Announce) (r : Request)
    (data : Bytes) : Prop where
  announce : t.announce = some a
  request : r ∈ t.requests
  asks : Asks a r
  returned : r.stage = .returned data
  action : fromBytes (slice data 0 4) = 1
  carries : fromBytes (slice data 4 8) = a.transactionId.toNat
  peers : response.peers = parseCompactPeers (data.drop 20)

structure Accounted (p : Protocol) (t : Call) : Prop where
  tracked : ∀ r ∈ t.requests, Tracked p r
  asks : ∀ a connect r, t.stage = .announcing a connect r → t.announce = some a ∧ Asks a r
  response : ∀ response, t.response = some response → ∃ a r data, TakenFrom t response a r data

theorem parse_taken {data : Bytes} {expectedTid : ℕ} {response : AnnounceResponse}
    (h : parseUdpAnnounceResponse data expectedTid = .ok response) :
    fromBytes (slice data 0 4) = 1 ∧ fromBytes (slice data 4 8) = expectedTid ∧
      response.peers = parseCompactPeers (data.drop 20) := by
  unfold parseUdpAnnounceResponse at h
  dsimp only at h
  split_ifs at h with hshort htid herror haction
  obtain rfl := Except.ok.inj h
  exact ⟨not_not.mp haction, not_not.mp htid, rfl⟩

section

variable {p p' : Protocol} {t t' : Call} {a : Announce} {connect r : Request}

theorem Accounted.later (h : Accounted p t) (hlater : Later p p') : Accounted p' t :=
  ⟨fun r hr => (h.tracked r hr).later hlater, h.asks, h.response⟩

theorem accounted_plain (h : ∀ r ∈ t.requests, Tracked p r)
    (hstage : ∀ a connect r, t.stage ≠ .announcing a connect r) (hresponse : t.response = none) :
    Accounted p t := by
  refine ⟨h, fun a connect r hannouncing => absurd hannouncing (hstage a connect r), ?_⟩
  intro response hsome
  rw [hresponse] at hsome
  cases hsome

theorem accounted_error {requests : List Request} (e : CallError)
    (h : ∀ r ∈ requests, Tracked p r) :
    Accounted p { t with stage := .finished requests (.error e) } :=
  accounted_plain h (by rintro _ _ _ ⟨⟩) rfl

theorem announces_accounted (ha : t.announce = some a) (hconnect : Tracked p connect)
    (hr : Tracked p r) (hasks : Asks a r) : Accounted p (t.announces a connect r) := by
  have hboth : ∀ q ∈ [connect, r], Tracked p q :=
    List.forall_mem_cons.mpr ⟨hconnect, List.forall_mem_singleton.mpr hr⟩
  unfold Call.announces
  split
  · next data hdata =>
    cases hparse : parseUdpAnnounceResponse data a.transactionId.toNat with
    | error e => exact accounted_error _ hboth
    | ok response =>
      refine ⟨hboth, by rintro _ _ _ ⟨⟩, fun response' hresponse => ?_⟩
      obtain rfl := Option.some.inj hresponse
      obtain ⟨haction, hcarries, hpeers⟩ := parse_taken hparse
      exact ⟨a, r, data, ha, List.mem_cons_of_mem _ (List.mem_singleton_self r), hasks, hdata,
        haction, hcarries, hpeers⟩
  · exact accounted_error _ hboth
  · refine ⟨hboth, fun a' connect' r' hstage => ?_, by rintro _ ⟨⟩⟩
    obtain ⟨rfl, -, rfl⟩ := CallStage.announcing.inj hstage
    exact ⟨ha, hasks⟩

theorem connects_accounted (hp : Good p) (hr : Tracked p r) (connectionId : ℕ) :
    Keeps p (t.connects p r connectionId).1 ∧
      Accounted (t.connects p r connectionId).1 (t.connects p r connectionId).2 := by
  have hone : ∀ q ∈ [r], Tracked p q := List.forall_mem_singleton.mpr hr
  unfold Call.connects
  split
  · exact ⟨hp.keeps, accounted_plain hone (by rintro _ _ _ ⟨⟩) rfl⟩
  · next a ha =>
    generalize hpayload :
      announcePayload a.request connectionId a.transactionId.toNat a.ipAddress = packed
    cases packed with
    | none => exact ⟨hp.keeps, accounted_error _ hone⟩
    | some payload =>
      obtain ⟨hkeeps, htracked, hsame⟩ := begins_tracked (t := t) hp (carries_of_pack hpayload)
      refine ⟨hkeeps, announces_accounted ha (hr.later hkeeps.later) htracked ⟨connectionId, ?_⟩⟩
      rw [hsame]
      exact hpayload

theorem asks_accounted (hp : Good p) (hr : Tracked p r) :
    Keeps p (t.asks p r).1 ∧ Accounted (t.asks p r).1 (t.asks p r).2 := by
  have hone : ∀ q ∈ [r], Tracked p q := List.forall_mem_singleton.mpr hr
  unfold Call.asks
  split
  · split
    · exact ⟨hp.keeps, accounted_error _ hone⟩
    · next connectionId _ => exact connects_accounted hp hr connectionId
  · exact ⟨hp.keeps, accounted_error _ hone⟩
  · exact ⟨hp.keeps, accounted_plain hone (by rintro _ _ _ ⟨⟩) rfl⟩

theorem starts_accounted (hp : Good p) :
    Keeps p (t.starts p).1 ∧ Accounted (t.starts p).1 (t.starts p).2 := by
  unfold Call.starts
  generalize hpayload : connectPayload t.transactionId.toNat = packed
  cases packed with
  | none => exact ⟨hp.keeps, accounted_error _ fun _ hr => absurd hr List.not_mem_nil⟩
  | some payload =>
    obtain ⟨hkeeps, htracked, -⟩ := begins_tracked (t := t) hp (carries_of_pack hpayload)
    obtain ⟨hkeeps', haccounted⟩ := asks_accounted (t := t) hkeeps.good htracked
    exact ⟨hkeeps.trans hkeeps', haccounted⟩

end

def Party.Accounted (p : Protocol) : Party → Prop
  | .network => True
  | .call t => UdpRequests.Accounted p t

theorem Party.Accounted.later {p p' : Protocol} {party : Party} (h : party.Accounted p)
    (hlater : Later p p') : party.Accounted p' := by
  cases party with
  | network => trivial
  | call t => exact UdpRequests.Accounted.later h hlater

theorem program_keeps {action : Action} {p p' : Protocol} {party party' : Party} (hp : Good p)
    (h : party.Accounted p) (hstep : program action p party = some (p', party')) :
    Keeps p p' ∧ party'.Accounted p' := by
  unfold program at hstep
  split at hstep
  · obtain ⟨rfl, rfl⟩ := Prod.mk.inj (Option.some.inj hstep)
    exact ⟨⟨⟨hp.sound, hp.waiters⟩, Grows.refl _, List.Subset.refl _⟩, trivial⟩
  · obtain ⟨rfl, rfl⟩ := Prod.mk.inj (Option.some.inj hstep)
    exact ⟨hp.datagramReceived _, trivial⟩
  · obtain ⟨rfl, rfl⟩ := Prod.mk.inj (Option.some.inj hstep)
    exact ⟨hp.errorReceived _, trivial⟩
  · obtain ⟨rfl, rfl⟩ := Prod.mk.inj (Option.some.inj hstep)
    exact ⟨hp.errorReceived _, trivial⟩
  · split at hstep
    · obtain ⟨rfl, rfl⟩ := Prod.mk.inj (Option.some.inj hstep)
      exact starts_accounted hp
    · cases hstep
  · next t =>
    split at hstep
    · next r hconnecting =>
      obtain ⟨⟨q, r'⟩, hturn, hnext⟩ := Option.map_eq_some_iff.mp hstep
      obtain ⟨rfl, rfl⟩ := Prod.mk.inj hnext
      have hrequests : t.requests = [r] := by rw [Call.requests, hconnecting]
      have hone := h.tracked
      rw [hrequests] at hone
      obtain ⟨hkeeps, htracked, -⟩ := turn_tracked hp (List.forall_mem_singleton.mp hone) hturn
      obtain ⟨hkeeps', haccounted⟩ := asks_accounted (t := t) hkeeps.good htracked
      exact ⟨hkeeps.trans hkeeps', haccounted⟩
    · next a connect r hannouncing =>
      obtain ⟨⟨q, r'⟩, hturn, hnext⟩ := Option.map_eq_some_iff.mp hstep
      obtain ⟨rfl, rfl⟩ := Prod.mk.inj hnext
      have hrequests : t.requests = [connect, r] := by rw [Call.requests, hannouncing]
      have hboth := h.tracked
      rw [hrequests] at hboth
      obtain ⟨hconnect, hr⟩ := List.forall_mem_cons.mp hboth
      obtain ⟨ha, hasks⟩ := h.asks a connect r hannouncing
      obtain ⟨hkeeps, htracked, hsame⟩ := turn_tracked hp (List.forall_mem_singleton.mp hr) hturn
      refine ⟨hkeeps, announces_accounted ha (hconnect.later hkeeps.later) htracked ?_⟩
      unfold Asks
      rw [hsame]
      exact hasks
    · cases hstep
  · cases hstep

theorem good_initial : Good initialProtocol :=
  ⟨sound_empty _, fun _ h => absurd h List.not_mem_nil⟩

theorem Reach.accounted {c : Config Protocol Party} (h : Reach program Spawns initial c) :
    Good c.shared ∧ ∀ party ∈ c.procs, party.Accounted c.shared := by
  refine h.rely_guarantee (R := Later) good_initial ?_ ?_ ?_ ?_
  · exact List.forall_mem_singleton.mpr trivial
  · intro c party _ hspawn
    cases party with
    | network => trivial
    | call t =>
      have hstarting : t.stage = .starting := hspawn
      have hrequests : t.requests = [] := by rw [Call.requests, hstarting]
      refine accounted_plain ?_ ?_ ?_
      · rw [hrequests]
        exact fun _ hr => absurd hr List.not_mem_nil
      · rw [hstarting]
        rintro _ _ _ ⟨⟩
      · rw [Call.response, hstarting]
  · intro c i action party p' party' _ _ hp haccounted hstep
    obtain ⟨hkeeps, haccounted'⟩ := program_keeps hp haccounted hstep
    exact ⟨hkeeps.good, haccounted', hkeeps.later⟩
  · exact fun p p' party _ hlater haccounted => haccounted.later hlater

/-- Futures are settled once, and replies reach the request that they are for. -/
structure Attributed (c : Config Protocol Party) : Prop where
  once : c.shared.futures.settled.Nodup
  valid : c.shared.futures.invalid = false
  own : ∀ t, .call t ∈ c.procs → ∀ r ∈ t.requests, ∀ data, r.stage = .returned data →
    data ∈ c.shared.received ∧ 8 ≤ data.length ∧ slice data 4 8 = slice r.payload 12 16
  sends : ∀ t, .call t ∈ c.procs → ∀ r ∈ t.requests, r.sent ≤ r.maxRetries + 1
  peers : ∀ t, .call t ∈ c.procs → ∀ response, t.response = some response →
    ∃ a r data, TakenFrom t response a r data ∧ data ∈ c.shared.received

theorem Tracked.own {p : Protocol} {r : Request} (h : Tracked p r) {data : Bytes}
    (hdata : r.stage = .returned data) :
    data ∈ p.received ∧ 8 ≤ data.length ∧ slice data 4 8 = slice r.payload 12 16 := by
  have hstage := h.stage
  rw [hdata] at hstage
  obtain ⟨hcame, hlong, hcarries⟩ := hstage
  refine ⟨hcame, hlong, ?_⟩
  have hlength : (slice data 4 8).length = 4 := by
    rw [slice, List.length_drop, List.length_take]
    omega
  have hbytes := toBytes_fromBytes (slice data 4 8)
  rw [hlength, hcarries] at hbytes
  rw [h.carries, hbytes]

/-- In every run of calls, retries, datagrams and errors, replies are attributed correctly. -/
theorem replies_attributed {c : Config Protocol Party} (h : Reach program Spawns initial c) :
    Attributed c := by
  obtain ⟨hgood, haccounted⟩ := Reach.accounted h
  refine ⟨hgood.sound.once, hgood.sound.valid, fun t ht r hr data hdata => ?_,
    fun t ht r hr => ?_, fun t ht response hresponse => ?_⟩
  · exact ((haccounted _ ht).tracked r hr).own hdata
  · exact ((haccounted _ ht).tracked r hr).sends
  · obtain ⟨a, r, data, htaken⟩ := (haccounted _ ht).response response hresponse
    have htracked := (haccounted _ ht).tracked r htaken.request
    exact ⟨a, r, data, htaken, (htracked.own htaken.returned).1⟩

def someCall : Call := ⟨5, some ⟨someRequest, 0, 9⟩, 8, .starting⟩

/-- The second datagram carries an id that no request has, and the third one answers the attempt
before the retry; it comes twice. -/
def someMoves : List (Move Party Action) :=
  [.act 0 .connectionMade, .spawn (.call someCall), .act 1 .starts,
    .act 0 (.datagram [0, 0, 0]), .act 0 (.datagram [0, 0, 0, 0, 0, 0, 0, 6]),
    .act 1 (.turn .expires), .act 1 (.turn .resumes),
    .act 0 (.datagram [0, 0, 0, 0, 0, 0, 0, 5, 0, 0, 0, 0, 0, 0, 0, 7]),
    .act 0 (.datagram [0, 0, 0, 0, 0, 0, 0, 5, 0, 0, 0, 0, 0, 0, 0, 8]), .act 1 (.turn .resumes),
    .act 0 (.datagram [0, 0, 0, 1, 0, 0, 0, 9, 0, 0, 7, 8, 0, 0, 0, 0, 0, 0, 0, 1, 10, 0, 0, 1, 26, 225]),
    .act 1 (.turn .resumes)]

def peerCounts (c : Config Protocol Party) : List ℕ :=
  c.procs.filterMap fun
    | .call t => t.response.map fun response => response.peers.length
    | .network => none

theorem replies_attributed_late : ∃ c, run program initial someMoves = some c ∧
    peerCounts c = [1] ∧ Attributed c := by
  have hcounts : (run program initial someMoves).map peerCounts = some [1] := by decide +kernel
  obtain ⟨c, hrun, hone⟩ := Option.map_eq_some_iff.mp hcounts
  have hallowed : Allowed program Spawns initial someMoves := by
    refine allowed_of_forall fun m hm c => ?_
    unfold someMoves at hm
    cases m with
    | act i action => trivial
    | spawn party =>
      simp only [List.mem_cons, reduceCtorEq, Move.spawn.injEq, List.not_mem_nil, false_or,
        or_false] at hm
      rw [hm]
      rfl
  exact ⟨c, hrun, hone, replies_attributed (reach_run hallowed hrun)⟩

end UdpRequests
