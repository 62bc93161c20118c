import Aiobt.ServedPieces
import Aiobt.StorageRefinement

/-! # Storage calls in threads

The tasks of a session whose storage is a `DiskStorage`. A call goes from file to file; each file is
read or written by a thread of the executor, byte by byte, while other tasks go on. Writes take the
lock of the file queue. A call that is cancelled leaves its thread running. -/
namespace DiskCalls

open ByteStrings PosixPaths FileSystem PieceTracker PeerMessages PieceEngine SessionTasks EngineTurns
open InterleavedProcesses TorrentStorage SliceLoops StorageRefinement FlatStore ServedPieces
open VerifiedPieces

/-- Where a call waits: the slices that are left, of which the first is at work, and the locals of
the loop. -/
inductive Call where
  | idle
  | reading (slices : List FileSlice) (offset remaining : ℤ) (fetched : ℕ)
  | writing (slices : List FileSlice) (offset pos remaining : ℤ)
  deriving DecidableEq

structure Writer where
  path : PurePath
  offset : ℤ
  data : Bytes
  deriving DecidableEq

/-- A task with the call that it waits for. The threads of calls that were cancelled go on. -/
structure Worker where
  proc : Proc
  call : Call
  thread : Option Writer
  lost : List Writer

/-- What the tasks share; the bytes of the session are in the files. -/
structure Disk where
  session : Session
  storage : DiskStorage
  files : Files
  writeLock : Bool

def Disk.view (d : Disk) : Session := { d.session with storage := diskContent d.storage d.files }

def fileOff (sl : FileSlice) (offset : ℤ) : ℤ := sl.fileOffset + max 0 (offset - sl.torrentOffset)

def span (sl : FileSlice) (offset remaining : ℤ) : ℤ :=
  min remaining (sl.length - max 0 (offset - sl.torrentOffset))

def callOf (st : DiskStorage) : Proc → Call
  | .peer t =>
    match t.point with
    | .read _ _ length offset _ => .reading (st.slicesFor offset length) offset length 0
    | .write _ spec assembled =>
      .writing (st.slicesFor spec.offset assembled.length) spec.offset 0 assembled.length
    | _ => .idle
  | .starter w =>
    match w.point with
    | .read _ spec _ _ => .reading (st.slicesFor spec.offset spec.length) spec.offset spec.length 0
    | _ => .idle

def dataOf : Proc → Bytes
  | .peer t =>
    match t.point with
    | .write _ _ assembled => assembled
    | _ => []
  | .starter _ => []

def readMore (byte : UInt8) : Proc → Proc
  | .peer t =>
    match t.point with
    | .read index begin length offset data =>
      .peer { t with point := .read index begin length offset (data ++ [byte]) }
    | _ => .peer t
  | .starter w =>
    match w.point with
    | .read index spec data todo =>
      .starter { w with point := .read index spec (data ++ [byte]) todo }
    | _ => .starter w

def returnsTo (hint : ℕ) : Proc → SessionAction
  | .peer _ => .peer (.returns hint)
  | .starter _ => .start .returns

def raisesTo : Proc → SessionAction
  | .peer _ => .peer .raises
  | .starter _ => .start .fails

def cancelsTo : Proc → SessionAction
  | .peer _ => .peer .raises
  | .starter _ => .start .raises

inductive DiskAction where
  | acts (a : SessionAction)
  /-- The choking manager decides, also during a call. -/
  | rechokes (amChoking : Bool)
  | locks
  | fetches
  /-- A byte of what a thread writes reaches the file. -/
  | stores (k : ℕ)
  | ends (hint : ℕ)
  | fails
  | cancels
  | lostStores (i k : ℕ)
  | lostEnds (i : ℕ)
  | lostFails (i : ℕ)

section
variable (sha1 : Bytes → Bytes)

def goesOn (a : SessionAction) (d : Disk) (w : Worker) : Option (Disk × Worker) :=
  (program sha1 .files a d.view w.proc).map fun next =>
    ({ d with session := next.1 },
      { w with proc := next.2, call := callOf d.storage next.2, thread := none })

def readNext (hint : ℕ) (rest : List FileSlice) (offset remaining toRead : ℤ) (d : Disk) (w : Worker) :
    Option (Disk × Worker) :=
  if remaining - toRead ≤ 0 then goesOn sha1 (returnsTo hint w.proc) d w
  else some (d, { w with call := .reading rest (offset + toRead) (remaining - toRead) 0 })

def writeNext (hint : ℕ) (rest : List FileSlice) (offset pos remaining toWrite : ℤ) (d : Disk)
    (w : Worker) : Option (Disk × Worker) :=
  if remaining - toWrite ≤ 0 then goesOn sha1 (returnsTo hint w.proc) d w
  else some (d, { w with
    call := .writing rest (offset + toWrite) (pos + toWrite) (remaining - toWrite)
    thread := none })

/-- A thread of a call is through with its file. Reading another length than asked for is an
error. -/
def callEnds (hint : ℕ) (d : Disk) (w : Worker) : Option (Disk × Worker) :=
  match w.call, w.thread with
  | .reading [] _ _ _, _ => goesOn sha1 (returnsTo hint w.proc) d w
  | .reading (sl :: rest) offset remaining fetched, _ =>
    let toRead := span sl offset remaining
    if fetched = toRead then readNext sha1 hint rest offset remaining toRead d w
    else if toRead < 0 ∨ fileByte d.files sl.path (fileOff sl offset + fetched).toNat = none then
      goesOn sha1 (raisesTo w.proc) d w
    else none
  | .writing [] _ _ _, _ => goesOn sha1 (returnsTo hint w.proc) d w
  | .writing (sl :: rest) offset pos remaining, some th =>
    let (result, files) := syncWrite d.files th.path th.offset th.data
    let d := { d with files := files, writeLock := false }
    match result with
    | .error _ => goesOn sha1 (raisesTo w.proc) d w
    | .ok () => writeNext sha1 hint rest offset pos remaining (span sl offset remaining) d w
  | _, _ => none

def storeByte (files : Files) (th : Writer) (k : ℕ) : Option Files :=
  let loc := files.locate th.path
  match th.data[k]?, files.node loc with
  | some byte, some (.file content) =>
    some (files.put loc (.file (writeAt content (th.offset.toNat + k) [byte])))
  | _, _ => none

def diskStep : Program Disk Worker DiskAction
  | .acts a, d, w =>
    match w.call with
    | .idle => goesOn sha1 a d w
    | _ => none
  | .rechokes amChoking, d, w =>
    (program sha1 .files (.peer (.rechokes amChoking)) d.view w.proc).map fun next =>
      ({ d with session := next.1 }, { w with proc := next.2 })
  | .locks, d, w =>
    match w.call, w.thread with
    | .writing (sl :: _) offset pos remaining, none =>
      if d.writeLock then none
      else
        let data := pySlice (dataOf w.proc) pos (pos + span sl offset remaining)
        some ({ d with writeLock := true },
          { w with thread := some ⟨sl.path, fileOff sl offset, data⟩ })
    | _, _ => none
  | .fetches, d, w =>
    match w.call with
    | .reading (sl :: rest) offset remaining fetched =>
      if (fetched : ℤ) < span sl offset remaining then
        (fileByte d.files sl.path (fileOff sl offset + fetched).toNat).map fun byte =>
          (d, { w with
            proc := readMore byte w.proc
            call := .reading (sl :: rest) offset remaining (fetched + 1) })
      else none
    | _ => none
  | .stores k, d, w =>
    match w.thread with
    | none => none
    | some th => (storeByte d.files th k).map fun files => ({ d with files := files }, w)
  | .ends hint, d, w => callEnds sha1 hint d w
  | .fails, d, w =>
    match w.call, w.thread with
    | .reading _ _ _ _, _ => goesOn sha1 (raisesTo w.proc) d w
    | .writing _ _ _ _, some _ => goesOn sha1 (raisesTo w.proc) { d with writeLock := false } w
    | _, _ => none
  | .cancels, d, w =>
    match w.call, w.thread with
    | .idle, _ => none
    | .writing _ _ _ _, some th =>
      goesOn sha1 (cancelsTo w.proc) { d with writeLock := false } { w with lost := th :: w.lost }
    | _, _ => goesOn sha1 (cancelsTo w.proc) d w
  | .lostStores i k, d, w =>
    match w.lost[i]? with
    | none => none
    | some th => (storeByte d.files th k).map fun files => ({ d with files := files }, w)
  | .lostEnds i, d, w =>
    match w.lost[i]? with
    | none => none
    | some th =>
      some ({ d with files := (syncWrite d.files th.path th.offset th.data).2 },
        { w with lost := w.lost.eraseIdx i })
  | .lostFails i, d, w => some (d, { w with lost := w.lost.eraseIdx i })

end

def Beginning (_ : Config Disk Worker) : Move Worker DiskAction → Prop
  | .spawn w => Fresh w.proc ∧ w.call = .idle ∧ w.thread = none ∧ w.lost = []
  | .act _ _ => True

instance (c : Config Disk Worker) : (m : Move Worker DiskAction) → Decidable (Beginning c m)
  | .spawn _ => inferInstanceAs (Decidable (_ ∧ _))
  | .act _ _ => .isTrue trivial

end DiskCalls
