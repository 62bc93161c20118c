import Aiobt.DiffieHellman
import Aiobt.MseStreams
import Aiobt.Sha1

/-! # The MSE handshake

`mse_initiate` and `mse_receive` of `mse.py`. A coroutine is given by its awaits: a loop that reads
until it has enough waits as often as it has to. A write and the `drain` behind it are one step,
except for the last one of the receiver, which may fail when the response is already on its way. -/
namespace MseHandshake

open ByteStrings BigEndian DiffieHellman Rc4 SegmentedReads MseStreams Sha1

inductive EncryptionPolicy where
  | disabled
  | preferred
  | forced
  deriving DecidableEq, Repr

def cryptoPlaintext : ℕ := 1
def cryptoRc4 : ℕ := 2

def vc : Bytes := List.replicate 8 0

abbrev Pad := { b : Bytes // b.length ≤ 512 }

theorem nil_fits : ([] : Bytes).length ≤ 512 := Nat.zero_le _

inductive Failure where
  | incompleteRead
  | peerClosed
  | vcNotFound
  | vcVerificationFailed
  | req1NotFound
  | noMatchingInfoHash
  | peerSelectedRc4
  | peerSelectedPlaintext
  | unknownCryptoSelect (cryptoSelect : ℕ)
  | peerOnlyOffersPlaintext
  | peerOnlyOffersRc4
  | noAcceptableMethod (cryptoProvide : ℕ)
  deriving DecidableEq, Repr

def keyA : Bytes := [0x6b, 0x65, 0x79, 0x41]
def keyB : Bytes := [0x6b, 0x65, 0x79, 0x42]
def req1 : Bytes := [0x72, 0x65, 0x71, 0x31]
def req2 : Bytes := [0x72, 0x65, 0x71, 0x32]
def req3 : Bytes := [0x72, 0x65, 0x71, 0x33]

def deriveKeys (secret infoHash : Bytes) (initiator : Bool) : RC4 × RC4 :=
  let a := sha1 (keyA ++ secret ++ infoHash)
  let b := sha1 (keyB ++ secret ++ infoHash)
  if initiator then (RC4.new a 1024, RC4.new b 1024) else (RC4.new b 1024, RC4.new a 1024)

def req1Hash (secret : Bytes) : Bytes := sha1 (req1 ++ secret)

def obfuscatedHash (infoHash secret : Bytes) : Bytes :=
  List.zipWith (· ^^^ ·) (sha1 (req2 ++ infoHash)) (sha1 (req3 ++ secret))

structure MSEHandshakeResult where
  stream : MSEStream
  encrypted : Bool
  infoHash : Option Bytes

structure Negotiated where
  cryptoSelect : ℕ
  result : MSEHandshakeResult

structure InitiatorCall where
  infoHash : Bytes
  policy : EncryptionPolicy
  privateKey : PrivateKey
  padA : Pad
  padC : Pad

inductive Initiating where
  | publicKey
  | scanning (secret : Bytes) (enc : RC4) (scanBuf : Bytes)
  | header (enc dec : RC4) (encryptedData : Bytes)
  | padding (enc dec : RC4) (cryptoSelect padDLen : ℕ) (encryptedData : Bytes)

abbrev InitiatorOutcome := Outcome Initiating Negotiated Failure

def cryptoProvide : EncryptionPolicy → ℕ
  | .forced => cryptoRc4
  | .disabled => cryptoPlaintext
  | .preferred => cryptoPlaintext ||| cryptoRc4

def InitiatorCall.publicValue (c : InitiatorCall) : Bytes := (dhKeypair c.privateKey).2 ++ c.padA

def InitiatorCall.cryptoBlock (c : InitiatorCall) (secret : Bytes) : Bytes × RC4 :=
  let enc := (deriveKeys secret c.infoHash true).1
  let block := enc.process (vc ++ toBytes 4 (cryptoProvide c.policy) ++
    toBytes 2 c.padC.1.length ++ c.padC ++ toBytes 2 0)
  (req1Hash secret ++ obfuscatedHash c.infoHash secret ++ block.1, block.2)

def initiatorResult (policy : EncryptionPolicy) (enc dec : RC4) (cryptoSelect : ℕ)
    (encryptedData : Bytes) : InitiatorOutcome :=
  let leftover := dec.process encryptedData
  if cryptoSelect = cryptoRc4 then
    if policy = .disabled then .raises .peerSelectedRc4
    else .returns ⟨cryptoSelect, .encrypted enc leftover.2 leftover.1, true, none⟩
  else if cryptoSelect = cryptoPlaintext then
    if policy = .forced then .raises .peerSelectedPlaintext
    else .returns ⟨cryptoSelect, .plaintext, false, none⟩
  else .raises (.unknownCryptoSelect cryptoSelect)

def readPadD (policy : EncryptionPolicy) (enc dec : RC4) (cryptoSelect padDLen : ℕ)
    (encryptedData : Bytes) : InitiatorOutcome :=
  if encryptedData.length < padDLen then .waits (.padding enc dec cryptoSelect padDLen encryptedData)
  else
    initiatorResult policy enc (dec.process (encryptedData.take padDLen)).2 cryptoSelect
      (encryptedData.drop padDLen)

def readResponse (policy : EncryptionPolicy) (enc dec : RC4) (encryptedData : Bytes) :
    InitiatorOutcome :=
  if encryptedData.length < 14 then .waits (.header enc dec encryptedData)
  else
    let decrypted := dec.process (encryptedData.take 14)
    if slice decrypted.1 0 8 ≠ vc then .raises .vcVerificationFailed
    else
      readPadD policy enc decrypted.2 (fromBytes (slice decrypted.1 8 12))
        (fromBytes (slice decrypted.1 12 14)) (encryptedData.drop 14)

/-- One pass of the loop that looks for the encrypted verification constant. -/
def scanForVc (c : InitiatorCall) (secret : Bytes) (enc : RC4) (scanBuf : Bytes) : InitiatorOutcome :=
  let dec := (deriveKeys secret c.infoHash true).2
  match find scanBuf (dec.process vc).1 with
  | some vcPos => readResponse c.policy enc dec (scanBuf.drop vcPos)
  | none =>
    if 600 < scanBuf.length then .raises .vcNotFound else .waits (.scanning secret enc scanBuf)

def mseInitiate (c : InitiatorCall) : Coroutine Initiating Negotiated Failure where
  demand
    | .publicKey => .exactly 96
    | .scanning _ _ _ => .upTo 1024
    | .header _ _ encryptedData => .upTo (14 - encryptedData.length)
    | .padding _ _ _ padDLen encryptedData => .upTo (padDLen - encryptedData.length)
  feed
    | .publicKey, yb =>
      let secret := dhSecret yb c.privateKey.int
      let block := c.cryptoBlock secret
      (block.1, .waits (.scanning secret block.2 []))
    | .scanning secret enc scanBuf, chunk => ([], scanForVc c secret enc (scanBuf ++ chunk))
    | .header enc dec encryptedData, chunk =>
      ([], readResponse c.policy enc dec (encryptedData ++ chunk))
    | .padding enc dec cryptoSelect padDLen encryptedData, chunk =>
      ([], readPadD c.policy enc dec cryptoSelect padDLen (encryptedData ++ chunk))
  eof
    | .publicKey => .raises .incompleteRead
    | _ => .raises .peerClosed

inductive InfoHashLookup where
  | bytes (infoHash : Bytes)
  | dict (items : List (Bytes × Bytes))

def InfoHashLookup.hashes : InfoHashLookup → List Bytes
  | .bytes infoHash => [infoHash]
  | .dict items => items.map Prod.fst

structure ReceiverCall where
  infoHashLookup : InfoHashLookup
  policy : EncryptionPolicy
  privateKey : PrivateKey
  padB : Pad
  padD : Pad

inductive Receiving where
  | publicKey
  | scanning (secret scanBuf : Bytes) (req1Pos : Option ℕ)
  | header (matchedHash : Bytes) (enc dec : RC4) (encryptedData : Bytes)
  | padding (matchedHash : Bytes) (enc dec : RC4) (cryptoProvide padCLen : ℕ) (encryptedData : Bytes)
  | payload (matchedHash : Bytes) (enc dec : RC4) (cryptoProvide iaLen : ℕ) (encryptedData : Bytes)
  | responding (negotiated : Negotiated)

abbrev ReceiverStep := Bytes × Outcome Receiving Negotiated Failure

def selectCrypto (policy : EncryptionPolicy) (cryptoProvide : ℕ) : Except Failure ℕ :=
  match policy with
  | .forced =>
    if cryptoProvide &&& cryptoRc4 = 0 then .error .peerOnlyOffersPlaintext else .ok cryptoRc4
  | .disabled =>
    if cryptoProvide &&& cryptoPlaintext = 0 then .error .peerOnlyOffersRc4
    else .ok cryptoPlaintext
  | .preferred =>
    if cryptoProvide &&& cryptoRc4 ≠ 0 then .ok cryptoRc4
    else if cryptoProvide &&& cryptoPlaintext ≠ 0 then .ok cryptoPlaintext
    else .error (.noAcceptableMethod cryptoProvide)

def responseText (cryptoSelect : ℕ) (padD : Bytes) : Bytes :=
  vc ++ toBytes 4 cryptoSelect ++ toBytes 2 padD.length ++ padD

def respond (c : ReceiverCall) (matchedHash : Bytes) (enc dec : RC4) (cryptoProvide : ℕ)
    (encryptedData : Bytes) : ReceiverStep :=
  let leftover := dec.process encryptedData
  match selectCrypto c.policy cryptoProvide with
  | .error e => ([], .raises e)
  | .ok cryptoSelect =>
    let response := enc.process (responseText cryptoSelect c.padD)
    let result : MSEHandshakeResult :=
      if cryptoSelect = cryptoRc4 then
        ⟨.encrypted response.2 leftover.2 leftover.1, true, some matchedHash⟩
      else ⟨.plaintext, false, some matchedHash⟩
    (response.1, .waits (.responding ⟨cryptoSelect, result⟩))

def readPayload (c : ReceiverCall) (matchedHash : Bytes) (enc dec : RC4) (cryptoProvide iaLen : ℕ)
    (encryptedData : Bytes) : ReceiverStep :=
  if encryptedData.length < iaLen then
    ([], .waits (.payload matchedHash enc dec cryptoProvide iaLen encryptedData))
  else
    respond c matchedHash enc (dec.process (encryptedData.take iaLen)).2 cryptoProvide
      (encryptedData.drop iaLen)

def readPadC (c : ReceiverCall) (matchedHash : Bytes) (enc dec : RC4) (cryptoProvide padCLen : ℕ)
    (encryptedData : Bytes) : ReceiverStep :=
  let need := padCLen + 2
  if encryptedData.length < need then
    ([], .waits (.padding matchedHash enc dec cryptoProvide padCLen encryptedData))
  else
    let rest := dec.process (encryptedData.take need)
    readPayload c matchedHash enc rest.2 cryptoProvide
      (fromBytes (slice rest.1 padCLen (padCLen + 2))) (encryptedData.drop need)

def readOffer (c : ReceiverCall) (matchedHash : Bytes) (enc dec : RC4) (encryptedData : Bytes) :
    ReceiverStep :=
  if encryptedData.length < 14 then ([], .waits (.header matchedHash enc dec encryptedData))
  else
    let decrypted := dec.process (encryptedData.take 14)
    if slice decrypted.1 0 8 ≠ vc then ([], .raises .vcVerificationFailed)
    else
      readPadC c matchedHash enc decrypted.2 (fromBytes (slice decrypted.1 8 12))
        (fromBytes (slice decrypted.1 12 14)) (encryptedData.drop 14)

def identify (c : ReceiverCall) (secret scanBuf : Bytes) (req1Pos : ℕ) : ReceiverStep :=
  match c.infoHashLookup.hashes.find? fun infoHash =>
      obfuscatedHash infoHash secret = slice scanBuf (req1Pos + 20) (req1Pos + 40) with
  | none => ([], .raises .noMatchingInfoHash)
  | some matchedHash =>
    let keys := deriveKeys secret matchedHash false
    readOffer c matchedHash keys.1 keys.2 (scanBuf.drop (req1Pos + 40))

def scanForReq1 (c : ReceiverCall) (secret scanBuf : Bytes) (req1Pos : Option ℕ) : ReceiverStep :=
  match req1Pos.or (find scanBuf (req1Hash secret)) with
  | none =>
    if 700 < scanBuf.length then ([], .raises .req1NotFound)
    else ([], .waits (.scanning secret scanBuf none))
  | some pos =>
    if scanBuf.length < pos + 40 then ([], .waits (.scanning secret scanBuf (some pos)))
    else identify c secret scanBuf pos

def mseReceive (c : ReceiverCall) : Coroutine Receiving Negotiated Failure where
  demand
    | .publicKey => .exactly 96
    | .scanning _ _ _ => .upTo 1024
    | .header _ _ _ encryptedData => .upTo (14 - encryptedData.length)
    | .padding _ _ _ _ padCLen encryptedData => .upTo (padCLen + 2 - encryptedData.length)
    | .payload _ _ _ _ iaLen encryptedData => .upTo (iaLen - encryptedData.length)
    | .responding _ => .drained
  feed
    | .publicKey, ya =>
      let secret := dhSecret ya c.privateKey.int
      ((dhKeypair c.privateKey).2 ++ c.padB, .waits (.scanning secret [] none))
    | .scanning secret scanBuf req1Pos, chunk => scanForReq1 c secret (scanBuf ++ chunk) req1Pos
    | .header matchedHash enc dec encryptedData, chunk =>
      readOffer c matchedHash enc dec (encryptedData ++ chunk)
    | .padding matchedHash enc dec cryptoProvide padCLen encryptedData, chunk =>
      readPadC c matchedHash enc dec cryptoProvide padCLen (encryptedData ++ chunk)
    | .payload matchedHash enc dec cryptoProvide iaLen encryptedData, chunk =>
      readPayload c matchedHash enc dec cryptoProvide iaLen (encryptedData ++ chunk)
    | .responding negotiated, _ => ([], .returns negotiated)
  eof
    | .publicKey => .raises .incompleteRead
    | .responding negotiated => .returns negotiated
    | _ => .raises .peerClosed

end MseHandshake
