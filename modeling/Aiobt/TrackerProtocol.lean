import Aiobt.BencodeCodec
import Aiobt.BigEndian
import Aiobt.SurrogateUtf8

/-! # Tracker announces

The data models of `tracker.py` and its parsers of HTTP and UDP replies. -/
namespace TrackerProtocol

open ByteStrings BencodeCodec PyDecimal
open SurrogateUtf8 (PyStr)

abbrev Url := PyStr

structure AnnounceRequest where
  infoHash : Bytes
  peerId : Bytes
  port : ℤ
  uploaded : ℤ
  downloaded : ℤ
  left : ℤ
  compact : Bool
  event : PyStr
  numwant : ℤ
  key : ℕ
  deriving DecidableEq, Repr

structure PeerAddress where
  host : PyStr
  port : ℤ
  deriving DecidableEq, Repr

structure AnnounceResponse where
  interval : ℤ
  peers : List PeerAddress
  complete : ℤ
  incomplete : ℤ
  deriving DecidableEq, Repr

/-- One constructor for each message of `TrackerError` in `tracker.py`. A text that the tracker sent
is the bytes or the value that it is made of. -/
inductive TrackerError where
  | failureReason (reason : BencodeValue)
  | connectTooShort (length : ℕ)
  | connectMismatch (sent got : ℕ)
  | connectError (message : Bytes)
  | connectAction (action : ℕ)
  | announceTooShort (length : ℕ)
  | announceMismatch (expected got : ℕ)
  | announceError (message : Bytes)
  | announceAction (action : ℕ)

/-- What leaves `announce(url, request)` when it does not return. -/
inductive AnnounceError where
  | tracker (error : TrackerError)
  /-- `OSError`: the connection fails, no name is found, or `TimeoutError`. -/
  | os
  | codec (error : PyError)
  | notDict
  | badInterval
  | unicodeDecode
  /-- `ValueError` for a URL without a host or with an unknown scheme. -/
  | value
  | cancelled

abbrev Outcome := Except AnnounceError AnnounceResponse

/-- `_parse_compact_peers`: an incomplete entry at the end is left out. -/
def parseCompactPeers : Bytes → List PeerAddress
  | a :: b :: c :: d :: hi :: lo :: rest =>
    let ip := natText a.toNat ++ [46] ++ natText b.toNat ++ [46] ++ natText c.toNat ++ [46] ++
      natText d.toNat
    ⟨ip.map UInt8.toNat, BigEndian.fromBytes [hi, lo]⟩ :: parseCompactPeers rest
  | _ => []

def decodeAscii (text : Bytes) : Except AnnounceError PyStr :=
  if text.all fun b => b < 128 then .ok (text.map UInt8.toNat) else .error .unicodeDecode

def keyFailureReason : Bytes :=
  [102, 97, 105, 108, 117, 114, 101, 32, 114, 101, 97, 115, 111, 110]
def keyInterval : Bytes := [105, 110, 116, 101, 114, 118, 97, 108]
def keyPeers : Bytes := [112, 101, 101, 114, 115]
def keyIp : Bytes := [105, 112]
def keyPort : Bytes := [112, 111, 114, 116]
def keyComplete : Bytes := [99, 111, 109, 112, 108, 101, 116, 101]
def keyIncomplete : Bytes := [105, 110] ++ keyComplete

def parseDictPeers : List BencodeValue → Except AnnounceError (List PeerAddress)
  | [] => .ok []
  | .dict entry :: rest =>
    match entry.lookup keyIp, entry.lookup keyPort with
    | some (.bytes ip), some (.int port) => do
      let host ← decodeAscii ip
      let peers ← parseDictPeers rest
      .ok (⟨host, port⟩ :: peers)
    | _, _ => parseDictPeers rest
  | _ :: rest => parseDictPeers rest

def intOrZero : Option BencodeValue → ℤ
  | some (.int value) => value
  | _ => 0

def parsePeers : Option BencodeValue → Except AnnounceError (List PeerAddress)
  | none => .ok []
  | some (.bytes raw) => .ok (parseCompactPeers raw)
  | some (.list entries) => parseDictPeers entries
  | some _ => .ok []

def parseHttpDict (decoded : List (Bytes × BencodeValue)) : Outcome :=
  match decoded.lookup keyFailureReason with
  | some failure => .error (.tracker (.failureReason failure))
  | none =>
    match decoded.lookup keyInterval with
    | some (.int interval) => do
      let peers ← parsePeers (decoded.lookup keyPeers)
      .ok ⟨interval, peers, intOrZero (decoded.lookup keyComplete),
        intOrZero (decoded.lookup keyIncomplete)⟩
    | _ => .error .badInterval

def parseHttpResponse (maxDigits depth : ℕ) (data : Bytes) : Outcome :=
  match decode maxDigits depth data with
  | .error e => .error (.codec e)
  | .ok (.dict decoded) => parseHttpDict decoded
  | .ok _ => .error .notDict

def parseConnectResponse (data : Bytes) (transactionId : ℕ) : Except TrackerError ℕ :=
  let action := BigEndian.fromBytes (slice data 0 4)
  let respTid := BigEndian.fromBytes (slice data 4 8)
  if data.length < 8 then .error (.connectTooShort data.length)
  else if respTid ≠ transactionId then .error (.connectMismatch transactionId respTid)
  else if action = 3 then .error (.connectError (data.drop 8))
  else if action ≠ 0 then .error (.connectAction action)
  else if data.length < 16 then .error (.connectTooShort data.length)
  else .ok (BigEndian.fromBytes (slice data 8 16))

def parseUdpAnnounceResponse (data : Bytes) (expectedTid : ℕ) : Except TrackerError AnnounceResponse :=
  let action := BigEndian.fromBytes (slice data 0 4)
  let tid := BigEndian.fromBytes (slice data 4 8)
  if data.length < 20 then .error (.announceTooShort data.length)
  else if tid ≠ expectedTid then .error (.announceMismatch expectedTid tid)
  else if action = 3 then .error (.announceError (data.drop 8))
  else if action ≠ 1 then .error (.announceAction action)
  else .ok {
    interval := BigEndian.fromBytes (slice data 8 12)
    peers := parseCompactPeers (data.drop 20)
    complete := BigEndian.fromBytes (slice data 16 20)
    incomplete := BigEndian.fromBytes (slice data 12 16) }

end TrackerProtocol
