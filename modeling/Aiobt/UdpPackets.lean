import Aiobt.StructFormats
import Aiobt.TrackerProtocol
import Aiobt.WireFraming

/-! # Packets of a UDP tracker

The announce request that `udp_announce` packs, and the replies of the tracker. -/
namespace UdpPackets

open ByteStrings BigEndian StructFormats TrackerProtocol
open SurrogateUtf8 (PyStr)
open PyDecimal (natText)
open WireFraming (word word_zero word_succ word_lt)

def eventCompleted : PyStr := [99, 111, 109, 112, 108, 101, 116, 101, 100]
def eventStarted : PyStr := [115, 116, 97, 114, 116, 101, 100]
def eventStopped : PyStr := [115, 116, 111, 112, 112, 101, 100]

def eventCode (event : PyStr) : ℤ :=
  if event = eventCompleted then 1
  else if event = eventStarted then 2
  else if event = eventStopped then 3
  else 0

def announceFormat : List Field :=
  [.unsigned 8, .unsigned 4, .unsigned 4, .chars 20, .chars 20, .signed 8, .signed 8, .signed 8,
    .unsigned 4, .signed 4, .unsigned 4, .signed 4, .unsigned 2]

/-- The payload that `udp_announce` sends; `none` stands for `struct.error`. -/
def announcePayload (request : AnnounceRequest) (connectionId transactionId : ℕ) (ipAddress : ℤ) :
    Option Bytes :=
  pack announceFormat
    [.int connectionId, .int 1, .int transactionId, .bytes request.infoHash, .bytes request.peerId,
      .int request.downloaded, .int request.left, .int request.uploaded,
      .int (eventCode request.event), .int ipAddress, .int request.key, .int request.numwant,
      .int request.port]

structure AnnouncePacket where
  connectionId : ℤ
  action : ℤ
  transactionId : ℤ
  infoHash : Bytes
  peerId : Bytes
  downloaded : ℤ
  left : ℤ
  uploaded : ℤ
  event : ℤ
  ipAddress : ℤ
  key : ℤ
  numWant : ℤ
  port : ℤ
  deriving DecidableEq, Repr

def readInt (b : Bytes) (offset : ℕ) (f : Field) : Option ℤ :=
  match readAt b offset f with
  | some (.int z) => some z
  | _ => none

def readBytes (b : Bytes) (offset count : ℕ) : Option Bytes :=
  match readAt b offset (.chars count) with
  | some (.bytes text) => some text
  | _ => none

/-- What a tracker reads at the offsets of BEP 15; the address is a number without a sign. -/
def decodeAnnounce (b : Bytes) : Option AnnouncePacket := do
  let connectionId ← readInt b 0 (.unsigned 8)
  let action ← readInt b 8 (.unsigned 4)
  let transactionId ← readInt b 12 (.unsigned 4)
  let infoHash ← readBytes b 16 20
  let peerId ← readBytes b 36 20
  let downloaded ← readInt b 56 (.signed 8)
  let left ← readInt b 64 (.signed 8)
  let uploaded ← readInt b 72 (.signed 8)
  let event ← readInt b 80 (.unsigned 4)
  let ipAddress ← readInt b 84 (.unsigned 4)
  let key ← readInt b 88 (.unsigned 4)
  let numWant ← readInt b 92 (.signed 4)
  let port ← readInt b 96 (.unsigned 2)
  some ⟨connectionId, action, transactionId, infoHash, peerId, downloaded, left, uploaded, event,
    ipAddress, key, numWant, port⟩

def packetOf (request : AnnounceRequest) (connectionId transactionId : ℕ) (ipAddress : ℤ) :
    AnnouncePacket where
  connectionId := connectionId
  action := 1
  transactionId := transactionId
  infoHash := request.infoHash
  peerId := request.peerId
  downloaded := request.downloaded
  left := request.left
  uploaded := request.uploaded
  event := eventCode request.event
  ipAddress := ipAddress
  key := request.key
  numWant := request.numwant
  port := request.port

structure InDomain (request : AnnounceRequest) : Prop where
  infoHash : request.infoHash.length = 20
  peerId : request.peerId.length = 20
  port : 0 ≤ request.port ∧ request.port < 2 ^ 16
  key : request.key < 2 ^ 32
  numwant : -1 ≤ request.numwant ∧ request.numwant < 2 ^ 31
  downloaded : 0 ≤ request.downloaded ∧ request.downloaded < 2 ^ 63
  left : 0 ≤ request.left ∧ request.left < 2 ^ 63
  uploaded : 0 ≤ request.uploaded ∧ request.uploaded < 2 ^ 63

theorem eventCode_range (event : PyStr) : 0 ≤ eventCode event ∧ eventCode event < 4 := by
  unfold eventCode
  split_ifs <;> decide

section

variable {request : AnnounceRequest} {connectionId transactionId : ℕ} {ipAddress : ℤ}

theorem payload_isSome_iff (hd : InDomain request) (hconnection : connectionId < 2 ^ 64)
    (htransaction : transactionId < 2 ^ 32) (hip : 0 ≤ ipAddress) :
    (announcePayload request connectionId transactionId ipAddress).isSome ↔ ipAddress < 2 ^ 31 := by
  obtain ⟨hhash, hpeer, hport, hkey, hnumwant, hdown, hleft, hup⟩ := hd
  have hevent := eventCode_range request.event
  rw [announcePayload, pack_isSome_iff]
  simp only [announceFormat, List.forall₂_cons, List.forall₂_nil_left_iff, Fits, and_true, true_and]
  omega

/-- What was packed is read back, the address with its sign. -/
theorem decode_payload {b : Bytes} (hd : InDomain request) (hip : 0 ≤ ipAddress)
    (h : announcePayload request connectionId transactionId ipAddress = some b) :
    b.length = 98 ∧ decodeAnnounce b = some (packetOf request connectionId transactionId ipAddress) := by
  refine ⟨length_pack h, ?_⟩
  have hunpack := unpackFrom_pack h [] []
  rw [List.append_nil, List.nil_append] at hunpack
  have hread := readAt_of_unpackFrom hunpack
  simp only [announceFormat, offsets, Field.size, List.map_cons, List.zipWith_cons_cons, stored,
    fit_of_length hd.infoHash, fit_of_length hd.peerId, List.cons.injEq, List.length_nil] at hread
  obtain ⟨h0, h1, h2, h3, h4, h5, h6, h7, h8, h9, h10, h11, h12, -⟩ := hread
  have haddress := readAt_unsigned hip h9
  simp [decodeAnnounce, readInt, readBytes, packetOf, *]

/-- A payload that a tracker reads back is packed exactly where the address is below `2 ^ 31`. -/
theorem announce_encodable_iff (hd : InDomain request) (hconnection : connectionId < 2 ^ 64)
    (htransaction : transactionId < 2 ^ 32) (hip : 0 ≤ ipAddress ∧ ipAddress < 2 ^ 32) :
    (∃ payload, announcePayload request connectionId transactionId ipAddress = some payload ∧
      payload.length = 98 ∧
        decodeAnnounce payload = some (packetOf request connectionId transactionId ipAddress)) ↔
      ipAddress < 2 ^ 31 := by
  rw [← payload_isSome_iff hd hconnection htransaction hip.1]
  constructor
  · rintro ⟨payload, hpayload, -⟩
    rw [hpayload]
    rfl
  · intro h
    obtain ⟨payload, hpayload⟩ := Option.isSome_iff_exists.mp h
    exact ⟨payload, hpayload, decode_payload hd hip.1 hpayload⟩

end

def someRequest : AnnounceRequest where
  infoHash := List.replicate 20 1
  peerId := List.replicate 20 2
  port := 6881
  uploaded := 3
  downloaded := 2
  left := 1
  compact := true
  event := eventStarted
  numwant := -1
  key := 2 ^ 32 - 1

theorem someRequest_inDomain : InDomain someRequest :=
  ⟨rfl, rfl, by decide, by decide, by decide, by decide, by decide, by decide⟩

theorem announce_encodable_loopback :
    ∃ payload, announcePayload someRequest 7 8 (127 * 2 ^ 24 + 1) = some payload ∧
      payload.length = 98 ∧
        decodeAnnounce payload = some (packetOf someRequest 7 8 (127 * 2 ^ 24 + 1)) :=
  (announce_encodable_iff someRequest_inDomain (by decide) (by decide) (by decide)).mpr (by decide)

theorem private_address_not_packed :
    ¬ ∃ payload, announcePayload someRequest 7 8 (192 * 2 ^ 24 + 168 * 2 ^ 16 + 1) = some payload ∧
      payload.length = 98 ∧ decodeAnnounce payload =
        some (packetOf someRequest 7 8 (192 * 2 ^ 24 + 168 * 2 ^ 16 + 1)) := by
  rintro ⟨payload, hpayload, -⟩
  have hsome := Option.isSome_of_eq_some hpayload
  rw [payload_isSome_iff someRequest_inDomain (by decide) (by decide) (by decide)] at hsome
  exact absurd hsome (by decide)

theorem connectionId_lt {data : Bytes} {transactionId connectionId : ℕ}
    (h : parseConnectResponse data transactionId = .ok connectionId) : connectionId < 2 ^ 64 := by
  unfold parseConnectResponse at h
  dsimp only at h
  split_ifs at h with _ _ _ _ hshort
  obtain rfl := Except.ok.inj h
  have hlength : (slice data 8 16).length = 8 := by
    rw [length_slice]
    omega
  have hlt := fromBytes_lt (slice data 8 16)
  rw [hlength] at hlt
  exact hlt

structure PeerEntry where
  ip : UInt8 × UInt8 × UInt8 × UInt8
  port : UInt16
  deriving DecidableEq, Repr

def PeerEntry.address (p : PeerEntry) : PeerAddress where
  host := (natText p.ip.1.toNat ++ [46] ++ natText p.ip.2.1.toNat ++ [46] ++
    natText p.ip.2.2.1.toNat ++ [46] ++ natText p.ip.2.2.2.toNat).map UInt8.toNat
  port := p.port.toNat

def PeerEntry.encode (p : PeerEntry) : Bytes :=
  [p.ip.1, p.ip.2.1, p.ip.2.2.1, p.ip.2.2.2] ++ toBytes 2 p.port.toNat

structure AnnounceReply where
  interval : UInt32
  leechers : UInt32
  seeders : UInt32
  peers : List PeerEntry
  trailing : Bytes
  short : trailing.length < 6

def AnnounceReply.encode (r : AnnounceReply) (transactionId : UInt32) : Bytes :=
  toBytes 4 1 ++ (toBytes 4 transactionId.toNat ++ (toBytes 4 r.interval.toNat ++
    (toBytes 4 r.leechers.toNat ++ (toBytes 4 r.seeders.toNat ++
      (r.peers.flatMap PeerEntry.encode ++ r.trailing)))))

def AnnounceReply.response (r : AnnounceReply) : AnnounceResponse where
  interval := r.interval.toNat
  peers := r.peers.map PeerEntry.address
  complete := r.seeders.toNat
  incomplete := r.leechers.toNat

def errorReply (transactionId : UInt32) (message : Bytes) : Bytes :=
  toBytes 4 3 ++ (toBytes 4 transactionId.toNat ++ message)

/-- The peers of whole entries are read, and nothing of what is behind them. -/
theorem parseCompactPeers_encode (peers : List PeerEntry) {trailing : Bytes}
    (h : trailing.length < 6) :
    parseCompactPeers (peers.flatMap PeerEntry.encode ++ trailing) =
      peers.map PeerEntry.address := by
  induction peers with
  | nil =>
    rw [List.flatMap_nil, List.nil_append, List.map_nil]
    unfold parseCompactPeers
    split
    · simp only [List.length_cons] at h
      omega
    · rfl
  | cons p peers ih =>
    have hport : fromBytes (toBytes 2 p.port.toNat) = p.port.toNat :=
      fromBytes_toBytes p.port.toNat_lt
    rw [List.flatMap_cons, List.append_assoc, List.map_cons, ← ih, PeerEntry.address, ← hport]
    rfl

theorem exists_entries (b : Bytes) :
    ∃ (peers : List PeerEntry) (trailing : Bytes), trailing.length < 6 ∧
      b = peers.flatMap PeerEntry.encode ++ trailing := by
  induction b using parseCompactPeers.induct with
  | case1 a b c d hi lo rest ih =>
    obtain ⟨peers, trailing, hshort, rfl⟩ := ih
    have hlt : fromBytes [hi, lo] < UInt16.size :=
      (fromBytes_lt [hi, lo]).trans_le (by rw [List.length_cons, List.length_singleton]; decide)
    have hport : toBytes 2 (UInt16.ofNat (fromBytes [hi, lo])).toNat = [hi, lo] := by
      rw [UInt16.toNat_ofNat_of_lt' hlt]
      exact toBytes_fromBytes [hi, lo]
    refine ⟨⟨(a, b, c, d), UInt16.ofNat (fromBytes [hi, lo])⟩ :: peers, trailing, hshort, ?_⟩
    rw [List.flatMap_cons, PeerEntry.encode, hport]
    rfl
  | case2 b hother =>
    refine ⟨[], b, ?_, rfl⟩
    by_contra hlong
    match b, hlong with
    | a :: b :: c :: d :: hi :: lo :: rest, _ => exact hother a b c d hi lo rest rfl
    | [], h | [_], h | [_, _], h | [_, _, _], h | [_, _, _, _], h | [_, _, _, _, _], h =>
      exact h (by simp)

theorem drop_word (data : Bytes) (i : ℕ) (h : 4 * (i + 1) ≤ data.length) :
    data.drop (4 * i) = toBytes 4 (word data i) ++ data.drop (4 * (i + 1)) := by
  have hlength : (slice data (4 * i) (4 * i + 4)).length = 4 := by
    rw [length_slice]
    omega
  have hword : toBytes 4 (word data i) = (data.drop (4 * i)).take 4 := by
    have hbytes := toBytes_fromBytes (slice data (4 * i) (4 * i + 4))
    rw [hlength] at hbytes
    rw [word, hbytes, slice_add]
  rw [hword, Nat.mul_succ, ← List.drop_drop, List.take_append_drop]

theorem split_words {data : Bytes} (h : 20 ≤ data.length) :
    data = toBytes 4 (word data 0) ++ (toBytes 4 (word data 1) ++ (toBytes 4 (word data 2) ++
      (toBytes 4 (word data 3) ++ (toBytes 4 (word data 4) ++ data.drop 20)))) := by
  have h0 : data = _ := drop_word data 0 (by omega)
  have h1 := drop_word data 1 (by omega)
  have h2 := drop_word data 2 (by omega)
  have h3 := drop_word data 3 (by omega)
  have h4 := drop_word data 4 (by omega)
  rw [← h4, ← h3, ← h2, ← h1]
  exact h0

/-- What `_parse_udp_announce_response` is to make of a datagram. -/
structure Decoded (data : Bytes) (transactionId : UInt32) : Prop where
  reply : ∀ r : AnnounceReply, data = r.encode transactionId →
    parseUdpAnnounceResponse data transactionId.toNat = .ok r.response
  error : ∀ message, data = errorReply transactionId message →
    parseUdpAnnounceResponse data transactionId.toNat = .error (.announceError message)
  connect : ∀ message, data = errorReply transactionId message →
    parseConnectResponse data transactionId.toNat = .error (.connectError message)
  other : (∀ r : AnnounceReply, data ≠ r.encode transactionId) →
    (∀ message, data ≠ errorReply transactionId message) →
      ∃ e, parseUdpAnnounceResponse data transactionId.toNat = .error e

section

variable {data : Bytes} {transactionId : UInt32}

theorem parse_of_words {expectedTid : ℕ} (hlong : 20 ≤ data.length) (htid : word data 1 = expectedTid) :
    parseUdpAnnounceResponse data expectedTid =
      if word data 0 = 3 then .error (.announceError (data.drop 8))
      else if word data 0 ≠ 1 then .error (.announceAction (word data 0))
      else .ok ⟨word data 2, parseCompactPeers (data.drop 20), word data 4, word data 3⟩ := by
  have htid' : fromBytes (slice data 4 8) = expectedTid := htid
  unfold parseUdpAnnounceResponse
  dsimp only
  rw [if_neg (by omega : ¬ data.length < 20), if_neg (not_not_intro htid')]
  rfl

theorem parse_reply (r : AnnounceReply) (transactionId : UInt32) :
    parseUdpAnnounceResponse (r.encode transactionId) transactionId.toNat = .ok r.response := by
  have hlong : 20 ≤ (r.encode transactionId).length := by
    simp only [AnnounceReply.encode, List.length_append, length_toBytes]
    omega
  have h0 : word (r.encode transactionId) 0 = 1 := word_zero (by decide) _
  have h1 : word (r.encode transactionId) 1 = transactionId.toNat := by
    rw [AnnounceReply.encode, word_succ, word_zero transactionId.toNat_lt]
  have h2 : word (r.encode transactionId) 2 = r.interval.toNat := by
    rw [AnnounceReply.encode, word_succ, word_succ, word_zero r.interval.toNat_lt]
  have h3 : word (r.encode transactionId) 3 = r.leechers.toNat := by
    rw [AnnounceReply.encode, word_succ, word_succ, word_succ, word_zero r.leechers.toNat_lt]
  have h4 : word (r.encode transactionId) 4 = r.seeders.toNat := by
    rw [AnnounceReply.encode, word_succ, word_succ, word_succ, word_succ,
      word_zero r.seeders.toNat_lt]
  have hrest : (r.encode transactionId).drop 20 =
      r.peers.flatMap PeerEntry.encode ++ r.trailing := rfl
  rw [parse_of_words hlong h1, h0, if_neg (by decide), if_neg (by decide), h2, h3, h4, hrest,
    parseCompactPeers_encode _ r.short]
  rfl

theorem length_errorReply (transactionId : UInt32) (message : Bytes) :
    (errorReply transactionId message).length = 8 + message.length := by
  simp only [errorReply, List.length_append, length_toBytes]
  omega

theorem word_errorReply_zero (transactionId : UInt32) (message : Bytes) :
    word (errorReply transactionId message) 0 = 3 := word_zero (by decide) _

theorem word_errorReply_one (transactionId : UInt32) (message : Bytes) :
    word (errorReply transactionId message) 1 = transactionId.toNat := by
  rw [errorReply, word_succ, word_zero transactionId.toNat_lt]

theorem drop_errorReply (transactionId : UInt32) (message : Bytes) :
    (errorReply transactionId message).drop 8 = message := rfl

theorem connect_errorReply (transactionId : UInt32) (message : Bytes) :
    parseConnectResponse (errorReply transactionId message) transactionId.toNat =
      .error (.connectError message) := by
  have hlong : ¬ (errorReply transactionId message).length < 8 := by
    rw [length_errorReply]
    omega
  have htid : fromBytes (slice (errorReply transactionId message) 4 8) = transactionId.toNat :=
    word_errorReply_one transactionId message
  have haction : fromBytes (slice (errorReply transactionId message) 0 4) = 3 :=
    word_errorReply_zero transactionId message
  unfold parseConnectResponse
  dsimp only
  rw [if_neg hlong, if_neg (not_not_intro htid), if_pos haction, drop_errorReply]

theorem parse_long_error {message : Bytes} (transactionId : UInt32) (h : 12 ≤ message.length) :
    parseUdpAnnounceResponse (errorReply transactionId message) transactionId.toNat =
      .error (.announceError message) := by
  have hlong : 20 ≤ (errorReply transactionId message).length := by
    rw [length_errorReply]
    omega
  rw [parse_of_words hlong (word_errorReply_one transactionId message), word_errorReply_zero,
    if_pos rfl, drop_errorReply]

/-- With a shorter message the datagram is refused for its length. -/
theorem parse_short_error {message : Bytes} (transactionId : UInt32) (h : message.length < 12) :
    parseUdpAnnounceResponse (errorReply transactionId message) transactionId.toNat =
      .error (.announceTooShort (8 + message.length)) := by
  have hshort : (errorReply transactionId message).length < 20 := by
    rw [length_errorReply]
    omega
  unfold parseUdpAnnounceResponse
  dsimp only
  rw [if_pos hshort, length_errorReply]

theorem parse_ok {response : AnnounceResponse}
    (h : parseUdpAnnounceResponse data transactionId.toNat = .ok response) :
    ∃ r : AnnounceReply, data = r.encode transactionId := by
  unfold parseUdpAnnounceResponse at h
  dsimp only at h
  split_ifs at h with hshort htid haction hannounce
  obtain ⟨peers, trailing, htrailing, hrest⟩ := exists_entries (data.drop 20)
  have hword : ∀ i, (UInt32.ofNat (word data i)).toNat = word data i :=
    fun i => UInt32.toNat_ofNat_of_lt' (word_lt data i)
  have h0 : word data 0 = 1 := not_not.mp hannounce
  have h1 : word data 1 = transactionId.toNat := not_not.mp htid
  refine ⟨⟨UInt32.ofNat (word data 2), UInt32.ofNat (word data 3), UInt32.ofNat (word data 4),
    peers, trailing, htrailing⟩, ?_⟩
  rw [AnnounceReply.encode, hword, hword, hword, ← hrest, ← h0, ← h1]
  exact split_words (by omega)

/-- Replies are decoded as they should be, but for an error with a short message. -/
theorem decoded_iff (data : Bytes) (transactionId : UInt32) :
    Decoded data transactionId ↔
      ∀ message, data = errorReply transactionId message → 12 ≤ message.length := by
  constructor
  · intro h message hdata
    by_contra hshort
    have herror := h.error message hdata
    rw [hdata, parse_short_error transactionId (by omega)] at herror
    cases herror
  · intro h
    refine ⟨?_, ?_, ?_, ?_⟩
    · rintro r rfl
      exact parse_reply r transactionId
    · intro message hdata
      have hlong := h message hdata
      rw [hdata]
      exact parse_long_error transactionId hlong
    · rintro message rfl
      exact connect_errorReply transactionId message
    · intro hreply herror
      cases hparse : parseUdpAnnounceResponse data transactionId.toNat with
      | error e => exact ⟨e, rfl⟩
      | ok response =>
        obtain ⟨r, hdata⟩ := parse_ok hparse
        exact absurd hdata (hreply r)

theorem short_message_lost :
    ¬ Decoded (errorReply 123 [110, 111, 116, 32, 102, 111, 117, 110, 100]) 123 := by
  intro h
  have herror := h.error _ rfl
  rw [parse_short_error 123 (by decide)] at herror
  cases herror

end

end UdpPackets
