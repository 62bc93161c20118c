import Aiobt.PeerMessages
import Aiobt.FlatStore
import Mathlib.Data.Finset.Sort
import Mathlib.Algebra.BigOperators.Group.Finset.Basic

/-! # The transfer engine

`run_peer` of `engine.py` with its helpers, cut at the await points: a task stands at one of them,
and a step runs it to the next. What happens in between is not interrupted. -/
namespace PieceEngine

open ByteStrings PieceTracker PeerMessages FlatStore

structure Address where
  host : List ℕ
  port : ℕ
  deriving DecidableEq, Repr

structure EndgameState where
  active : Bool
  pieces : Finset ℕ
  peerRequests : ℕ → Option (Finset Address)

namespace EndgameState

def new : EndgameState := ⟨false, ∅, fun _ => none⟩

def enter (e : EndgameState) (pendingPieces : Finset ℕ) : EndgameState where
  active := true
  pieces := pendingPieces
  peerRequests i := if i ∈ pendingPieces then some ((e.peerRequests i).getD ∅) else e.peerRequests i

def recordRequest (e : EndgameState) (index : ℕ) (addr : Address) : EndgameState :=
  { e with
    peerRequests := Function.update e.peerRequests index
      (some (insert addr ((e.peerRequests index).getD ∅))) }

/-- `piece_done` also returns the addresses that need a Cancel. -/
def pieceDone (e : EndgameState) (index : ℕ) : EndgameState × Finset Address :=
  (⟨e.active && decide (e.pieces.erase index ≠ ∅), e.pieces.erase index,
      Function.update e.peerRequests index none⟩,
    (e.peerRequests index).getD ∅)

def forget (e : EndgameState) (addr : Address) : EndgameState :=
  { e with peerRequests := fun i => (e.peerRequests i).map fun addrs => addrs.erase addr }

end EndgameState

inductive TorrentState where
  | stopped
  | checking
  | downloading
  | seeding
  | error
  deriving DecidableEq, Repr

inductive Event where
  | pieceVerified (index : ℕ)
  | completed
  | stateChanged (old new : TorrentState)
  deriving DecidableEq, Repr

/-- Reads beyond the end are short for files in the torrent's layout; a blob refuses them. -/
inductive StorageKind where
  | files
  | blob
  deriving DecidableEq, Repr

/-- What the tasks of a session share. The storage is a flat array, which it is as long as no file is
listed twice; `DiskCalls` has the files. Events are recorded in the order of their emission, and
Cancel messages with the peer they go to. -/
structure Session where
  tracker : Tracker
  endgame : EndgameState
  storage : Bytes
  doneEvent : Bool
  events : List Event
  cancels : List (Address × Message)
  state : TorrentState
  resumeChecked : Bool
  bytesDownloaded : ℤ
  bytesUploaded : ℤ

structure Rates where
  amChoking : Bool
  peerInterested : Bool
  bytesDownInterval : ℕ
  bytesUpInterval : ℕ
  deriving DecidableEq, Repr

/-- Where a task waits, with the locals that are read when it goes on. -/
inductive Await where
  | starting
  | sendBitfield
  | receive
  | sendInterested
  | sendUnchoke
  | sendRequest (spec : PieceSpec) (offset : ℕ)
  | read (index begin length : ℕ) (offset : ℤ) (data : Bytes)
  | sendPiece (size : ℕ)
  | write (index : ℕ) (spec : PieceSpec) (assembled : Bytes)
  | emitVerified (index : ℕ) (spec : PieceSpec)
  | sendHave (index : ℕ) (spec : PieceSpec)
  | sendCancel (index : ℕ) (spec : PieceSpec) (addrs : Finset Address) (offset : ℕ)
      (left : Finset Address)
  | emitCompleted
  | sendNotInterested
  | disconnect
  | ended
  deriving DecidableEq

inductive Entry where
  | received (msg : Message) (amChoking : Bool)
  | read (offset : ℤ) (length : ℕ)
  | sent (msg : Message)
  deriving DecidableEq, Repr

structure Task where
  addr : Address
  endgameGiven : Bool
  rates : Option Rates
  bytesDownloaded : ℕ
  bytesUploaded : ℕ
  currentPiece : Option ℕ
  pieceBlocks : List (ℕ × Bytes)
  pieceSpec : Option PieceSpec
  peerPieces : Finset ℕ
  peerChoking : Bool
  amInterested : Bool
  log : List Entry
  point : Await

def newTask (addr : Address) (endgameGiven : Bool) (rates : Option Rates) : Task where
  addr := addr
  endgameGiven := endgameGiven
  rates := rates
  bytesDownloaded := 0
  bytesUploaded := 0
  currentPiece := none
  pieceBlocks := []
  pieceSpec := none
  peerPieces := ∅
  peerChoking := true
  amInterested := false
  log := []
  point := .starting

namespace Task

/-- A message whose fields do not fit is not packed; that is seen in `PeerWrapper.settle`. -/
def send (t : Task) (msg : Message) (point : Await) : Task :=
  { t with log := t.log ++ [.sent msg], point := point }

def goto (t : Task) (point : Await) : Task := { t with point := point }

def amChoking (t : Task) : Bool := (t.rates.map Rates.amChoking).getD false

def countDown (t : Task) (n : ℕ) : Task :=
  { t with
    bytesDownloaded := t.bytesDownloaded + n
    rates := t.rates.map fun r => { r with bytesDownInterval := r.bytesDownInterval + n } }

def countUp (t : Task) (n : ℕ) : Task :=
  { t with
    bytesUploaded := t.bytesUploaded + n
    rates := t.rates.map fun r => { r with bytesUpInterval := r.bytesUpInterval + n } }

def dropPiece (t : Task) : Task := { t with currentPiece := none, pieceBlocks := [], pieceSpec := none }

def takePiece (t : Task) (index : ℕ) (spec : PieceSpec) : Task :=
  { t with currentPiece := some index, pieceBlocks := [], pieceSpec := some spec }

end Task

def blockSize : ℕ := 16384

def blockLen (spec : PieceSpec) (offset : ℕ) : ℕ := (min (blockSize : ℤ) (spec.length - offset)).toNat

def setBlock (blocks : List (ℕ × Bytes)) (begin : ℕ) (block : Bytes) : List (ℕ × Bytes) :=
  if blocks.any fun entry => entry.1 == begin then
    blocks.map fun entry => if entry.1 = begin then (begin, block) else entry
  else blocks ++ [(begin, block)]

def pieceComplete (blocks : List (ℕ × Bytes)) (pieceLength : ℤ) : Bool :=
  pieceLength ≤ (blocks.map fun entry => entry.2.length).sum

/-- `_assemble_piece`; `none` where `bytearray` refuses a negative length. Assigning a slice writes
over the bytes from `begin` on and may make the array longer. -/
def assemblePiece (blocks : List (ℕ × Bytes)) (pieceLength : ℤ) : Option Bytes :=
  if pieceLength < 0 then none
  else some ((blocks.insertionSort fun a b => a.1 ≤ b.1).foldl
    (fun result entry => flatWrite result entry.1 entry.2) (List.replicate pieceLength.toNat 0))

/-- The loop of `_start_piece` that looks for a piece the peer has. Each pass leaves one piece
fewer to select, so the fuel that is given does not run out. -/
def searchLoop (peerPieces : Finset ℕ) : ℕ → Tracker → Option ℕ → Tracker × Option ℕ
  | _, tracker, none => (tracker, none)
  | 0, tracker, some _ => (tracker, none)
  | fuel + 1, tracker, some idx =>
    if idx ∈ peerPieces then (tracker, some idx)
    else
      let tracker := tracker.markPending idx
      match tracker.selectPiece with
      | none => (tracker, none)
      | some idx =>
        if idx ∈ peerPieces then (tracker, some idx)
        else
          let tracker := tracker.markFailed idx
          searchLoop peerPieces fuel tracker tracker.selectPiece

def search (peerPieces : Finset ℕ) (tracker : Tracker) : Tracker × Option ℕ :=
  searchLoop peerPieces (tracker.candidates.length + 1) tracker tracker.selectPiece

inductive Started where
  | nothing
  | piece (index : ℕ) (spec : PieceSpec)
  | indexError

/-- The piece that iterating over a set comes upon first; any of them may be the first. -/
def firstOf (hint : ℕ) (pieces : Finset ℕ) : Option ℕ :=
  if hint ∈ pieces then some hint else if h : pieces.Nonempty then some (pieces.min' h) else none

/-- Endgame is entered with all pieces that remain, unless it is active or none remain. -/
def activate (tracker : Tracker) (endgame : EndgameState) : EndgameState :=
  let remaining := (Finset.range tracker.pieceCount.toNat).filter fun i => i ∉ tracker.got
  if ¬ endgame.active ∧ remaining ≠ ∅ then endgame.enter remaining else endgame

def startEndgame (hint : ℕ) (tracker : Tracker) (endgame : EndgameState) (peerPieces : Finset ℕ)
    (addr : Address) : EndgameState × Started :=
  let endgame := activate tracker endgame
  if endgame.active then
    match firstOf hint (endgame.pieces.filter fun i => i ∈ peerPieces ∧ i ∉ tracker.got) with
    | none => (endgame, .nothing)
    | some idx =>
      match tracker.specs[idx]? with
      | none => (endgame, .indexError)
      | some spec => (endgame.recordRequest idx addr, .piece idx spec)
  else (endgame, .nothing)

def startPiece (hint : ℕ) (tracker : Tracker) (endgame : EndgameState) (t : Task) :
    Tracker × EndgameState × Started :=
  match search t.peerPieces tracker with
  | (tracker, some idx) =>
    let tracker := tracker.markPending idx
    match tracker.specs[idx]? with
    | none => (tracker, endgame, .indexError)
    | some spec =>
      (tracker, if t.endgameGiven then endgame.recordRequest idx t.addr else endgame,
        .piece idx spec)
  | (tracker, none) =>
    if t.endgameGiven ∧ ¬ tracker.isComplete then
      let (endgame, started) := startEndgame hint tracker endgame t.peerPieces t.addr
      (tracker, endgame, started)
    else (tracker, endgame, .nothing)

def cleanup (s : Session) (t : Task) : Session × Task :=
  let tracker := match t.currentPiece with
    | none => s.tracker
    | some idx => s.tracker.markFailed idx
  ({ s with
      tracker := tracker.removeAvailability t.peerPieces
      endgame := if t.endgameGiven then s.endgame.forget t.addr else s.endgame },
    t.goto .disconnect)

def requestFrom (t : Task) (spec : PieceSpec) (offset : ℕ) : Task :=
  if (offset : ℤ) < spec.length then
    t.send (.request spec.index.toNat offset (blockLen spec offset)) (.sendRequest spec offset)
  else t.goto .receive

def nextPiece (hint : ℕ) (s : Session) (t : Task) : Session × Task :=
  match startPiece hint s.tracker s.endgame t with
  | (tracker, endgame, .nothing) =>
    ({ s with tracker := tracker, endgame := endgame }, t.dropPiece.goto .receive)
  | (tracker, endgame, .piece idx spec) =>
    ({ s with tracker := tracker, endgame := endgame }, requestFrom (t.takePiece idx spec) spec 0)
  | (tracker, endgame, .indexError) => cleanup { s with tracker := tracker, endgame := endgame } t

def finishPiece (hint : ℕ) (s : Session) (t : Task) : Session × Task :=
  if s.tracker.isComplete then
    ({ s with doneEvent := true, events := s.events ++ [.completed] }, t.dropPiece.goto .emitCompleted)
  else if t.peerChoking then (s, t.dropPiece.goto .receive)
  else nextPiece hint s t.dropPiece

section
variable (sha1 : Bytes → Bytes)

def onBlock (hint : ℕ) (s : Session) (t : Task) (index begin : ℕ) (block : Bytes) : Session × Task :=
  let t := { t with pieceBlocks := setBlock t.pieceBlocks begin block }.countDown block.length
  match t.pieceSpec with
  | none => (s, t.goto .receive)
  | some spec =>
    if pieceComplete t.pieceBlocks spec.length then
      match assemblePiece t.pieceBlocks spec.length with
      | none => cleanup s t
      | some assembled =>
        if verifyPiece sha1 assembled spec.hash then (s, t.goto (.write index spec assembled))
        else finishPiece hint { s with tracker := s.tracker.markFailed index } t
    else (s, t.goto .receive)

def onRequest (s : Session) (t : Task) (index begin length : ℕ) : Session × Task :=
  if t.amChoking then (s, t.goto .receive)
  else if index ∈ s.tracker.got then
    match s.tracker.specs[index]? with
    | none => cleanup s t
    | some spec =>
      (s, { t with
        log := t.log ++ [.read (spec.offset + begin) length]
        point := .read index begin length (spec.offset + begin) [] })
  else (s, t.goto .receive)

def announced (s : Session) (t : Task) (interest : Bool) : Session × Task :=
  if ¬ s.tracker.isComplete ∧ interest then (s, t.send .interested .sendInterested)
  else (s, t.goto .receive)

def setInterest (t : Task) (interested : Bool) : Task :=
  { t with rates := t.rates.map fun r => { r with peerInterested := interested } }

/-- One pass of the message loop, after `receive_message` has returned. -/
def onMessage (hint : ℕ) (s : Session) (t : Task) (msg : Message) : Session × Task :=
  let t := { t with log := t.log ++ [.received msg t.amChoking] }
  match msg with
  | .keepAlive => (s, t.goto .receive)
  | .bitfield data =>
    let pieces := bitfieldToSet data s.tracker.pieceCount
    announced { s with tracker := s.tracker.updateAvailability pieces }
      { t with peerPieces := pieces } true
  | .havePiece index =>
    announced { s with tracker := s.tracker.updateAvailability {index} }
      { t with peerPieces := insert index t.peerPieces } (!t.amInterested)
  | .interested =>
    match t.rates with
    | some _ => (s, (setInterest t true).goto .receive)
    | none => (s, t.send .unchoke .sendUnchoke)
  | .notInterested => (s, (setInterest t false).goto .receive)
  | .choke =>
    match t.currentPiece with
    | none => (s, { t with peerChoking := true }.goto .receive)
    | some idx => ({ s with tracker := s.tracker.markFailed idx },
        { t with peerChoking := true }.dropPiece.goto .receive)
  | .unchoke =>
    if ¬ s.tracker.isComplete ∧ t.currentPiece = none then
      nextPiece hint s { t with peerChoking := false }
    else (s, { t with peerChoking := false }.goto .receive)
  | .request index begin length => onRequest s t index begin length
  | .piece index begin block =>
    if t.currentPiece = some index then onBlock sha1 hint s t index begin block
    else (s, t.goto .receive)
  | .cancel _ _ _ => (s, t.goto .receive)

end

def cancelFrom (hint : ℕ) (s : Session) (t : Task) (index : ℕ) (spec : PieceSpec)
    (addrs : Finset Address) (offset : ℕ) : Session × Task :=
  if addrs ≠ ∅ ∧ (offset : ℤ) < spec.length then (s, t.goto (.sendCancel index spec addrs offset addrs))
  else finishPiece hint s t

def afterHave (hint : ℕ) (s : Session) (t : Task) (index : ℕ) (spec : PieceSpec) : Session × Task :=
  if t.endgameGiven ∧ s.endgame.active ∧ (s.endgame.peerRequests index).isSome then
    let (endgame, addrs) := s.endgame.pieceDone index
    cancelFrom hint { s with endgame := endgame } t index spec (addrs.erase t.addr) 0
  else finishPiece hint s t

def fetchByte (storage : Bytes) (offset length : ℤ) (data : Bytes) : Option UInt8 :=
  if (data.length : ℤ) < length ∧ 0 ≤ offset + data.length then storage[(offset + data.length).toNat]?
  else none

inductive Action where
  | starts
  | receives (msg : Message) (hint : ℕ)
  | returns (hint : ℕ)
  | raises
  | fetches
  | stores (k : ℕ)
  | cancels (addr : Address) (connected : Bool) (hint : ℕ)
  | rechokes (amChoking : Bool)

section
variable (sha1 : Bytes → Bytes) (kind : StorageKind)

def resume (hint : ℕ) (s : Session) (t : Task) : Option (Session × Task) :=
  match t.point with
  | .sendBitfield => some (s, { t with peerChoking := true, amInterested := false }.goto .receive)
  | .sendInterested => some (s, { t with amInterested := true }.goto .receive)
  | .sendUnchoke => some (s, t.goto .receive)
  | .sendRequest spec offset => some (s, requestFrom t spec (offset + blockLen spec offset))
  | .read index begin length offset data =>
    if fetchByte s.storage offset length data ≠ none then none
    else if kind = .blob ∧ data.length ≠ length then some (cleanup s t)
    else some (s, t.send (.piece index begin data) (.sendPiece data.length))
  | .sendPiece size => some (s, (t.countUp size).goto .receive)
  | .write index spec assembled =>
    some ({ s with
        storage := flatWrite s.storage spec.offset.toNat assembled
        tracker := s.tracker.markHave index
        events := s.events ++ [.pieceVerified index] },
      t.goto (.emitVerified index spec))
  | .emitVerified index spec => some (s, t.send (.havePiece index) (.sendHave index spec))
  | .sendHave index spec => some (afterHave hint s t index spec)
  | .emitCompleted => some (s, t.send .notInterested .sendNotInterested)
  | .sendNotInterested => some (s, { t with amInterested := false }.goto .receive)
  | .disconnect => some ({ s with
      bytesDownloaded := s.bytesDownloaded + t.bytesDownloaded
      bytesUploaded := s.bytesUploaded + t.bytesUploaded }, t.goto .ended)
  | _ => none

def cancelStep (addr : Address) (connected : Bool) (hint : ℕ) (s : Session) (t : Task) :
    Option (Session × Task) :=
  match t.point with
  | .sendCancel index spec addrs offset left =>
    if addr ∈ left then
      let s := if connected then
          { s with cancels := s.cancels ++ [(addr, .cancel index offset (blockLen spec offset))] }
        else s
      if left.erase addr ≠ ∅ then
        some (s, t.goto (.sendCancel index spec addrs offset (left.erase addr)))
      else some (cancelFrom hint s t index spec addrs (offset + blockLen spec offset))
    else none
  | _ => none

def taskStep : Action → Session → Task → Option (Session × Task)
  | .starts, s, t =>
    match t.point with
    | .starting =>
      match buildBitfield s.tracker with
      | none => some (cleanup s t)
      | some data => some (s, t.send (.bitfield data) .sendBitfield)
    | _ => none
  | .receives msg hint, s, t =>
    match t.point with
    | .receive => some (onMessage sha1 hint s t msg)
    | _ => none
  | .returns hint, s, t => resume kind hint s t
  | .raises, s, t =>
    match t.point with
    | .starting => some (s, t.goto .ended)
    | .disconnect => some ({ s with
        bytesDownloaded := s.bytesDownloaded + t.bytesDownloaded
        bytesUploaded := s.bytesUploaded + t.bytesUploaded }, t.goto .ended)
    | .ended => none
    | _ => some (cleanup s t)
  | .fetches, s, t =>
    match t.point with
    | .read index begin length offset data =>
      (fetchByte s.storage offset length data).map fun byte =>
        (s, t.goto (.read index begin length offset (data ++ [byte])))
    | _ => none
  | .stores k, s, t =>
    match t.point with
    | .write _ spec assembled =>
      (assembled[k]?).map fun byte =>
        ({ s with storage := s.storage.set (spec.offset.toNat + k) byte }, t)
    | _ => none
  | .cancels addr connected hint, s, t => cancelStep addr connected hint s t
  | .rechokes amChoking, s, t =>
    match t.rates with
    | none => none
    | some r => some (s, { t with rates := some { r with amChoking := amChoking } })

end

end PieceEngine
