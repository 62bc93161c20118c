import Aiobt.FileSystem
import Aiobt.PieceHashing
import Aiobt.TorrentSerialization
import Mathlib.Data.Nat.Log

/-! # Creating torrents

`create.py`: the scan of the given paths, the choice of a piece size, and the metadata of a new
torrent. -/
namespace TorrentCreation

open ByteStrings PosixPaths FileSystem SurrogateUtf8 BencodeCodec TorrentMetadata
  TorrentSerialization PieceHashing

structure IsName (part : Part) : Prop where
  ne_nil : part ≠ []
  ne_dot : part ≠ dot
  ne_dotdot : part ≠ dotdot
  no_slash : slash ∉ part
  no_null : 0 ∉ part

/-- A file system as `stat` shows it, where a link is what it leads to. `resolve` is `Path.resolve`,
and `entries` is what a walk through the directories finds; it does not follow links. -/
structure Disk where
  files : Files
  resolve : PurePath → Location
  entries : List Location
  parent_dir : ∀ loc n, files.node loc = some n → loc ≠ [] → files.node loc.dropLast = some .dir
  names : ∀ loc n, files.node loc = some n → ∀ part ∈ loc, IsName part
  cwd_dir : files.node files.cwd = some .dir

def Disk.rglob (d : Disk) (loc : Location) : List Location :=
  d.entries.filter fun child => loc <+: child ∧ child ≠ loc

def baseName (loc : Location) : PyStr := loc.getLast?.getD []

def Disk.content (d : Disk) (loc : Location) : Bytes :=
  match d.files.node loc with
  | some (.file content) => content
  | _ => []

inductive CreateError where
  | notFound (loc : Location)
  | noFilesUnder (loc : Location)
  | noFiles
  | belowMinimum (pieceLength : ℤ)
  | notPowerOfTwo (pieceLength : ℤ)
  /-- `OverflowError` of a read whose size does not fit an index. -/
  | overflow
  | serialize (error : SerializeError)
  deriving DecidableEq, Repr

structure FileSpec where
  diskPath : Location
  torrentPath : List PyStr
  length : ℕ
  deriving DecidableEq, Repr

def isHidden (part : Part) : Bool := part.head? = some 46

/-- The body of the loop over the children; hidden and empty files are skipped. -/
def scanChild (d : Disk) (loc child : Location) : Option FileSpec :=
  match d.files.node child with
  | some (.file content) =>
    let rel := child.drop loc.length
    if rel.any isHidden then none
    else if content.length = 0 then none
    else some ⟨child, rel, content.length⟩
  | _ => none

/-- The files under a directory. Paths are ordered by their parts. -/
def scanDir (d : Disk) (loc : Location) : List FileSpec :=
  ((d.rglob loc).insertionSort (· ≤ ·)).filterMap (scanChild d loc)

def scanPath (d : Disk) (loc : Location) : Except CreateError (PyStr × List FileSpec) :=
  match d.files.node loc with
  | some (.file content) => .ok (baseName loc, [⟨loc, [baseName loc], content.length⟩])
  | none => .error (.notFound loc)
  | some .dir =>
    let specs := scanDir d loc
    if specs = [] then .error (.noFilesUnder loc) else .ok (baseName loc, specs)

def scanOne (d : Disk) (loc : Location) : Except CreateError (List FileSpec) :=
  match d.files.node loc with
  | some (.file content) => .ok [⟨loc, [baseName loc], content.length⟩]
  | none => .error (.notFound loc)
  | some .dir => do
    let (_, dirSpecs) ← scanPath d loc
    .ok (dirSpecs.map fun spec => { spec with torrentPath := baseName loc :: spec.torrentPath })

def scanAll (d : Disk) : List Location → Except CreateError (List FileSpec)
  | [] => .ok []
  | loc :: rest => do
    let specs ← scanOne d loc
    let more ← scanAll d rest
    .ok (specs ++ more)

def commonParts : Location → Location → Location
  | a :: as, b :: bs => if a = b then a :: commonParts as bs else []
  | _, _ => []

def commonPath : List Location → Location
  | [] => []
  | loc :: rest => rest.foldl commonParts loc

def commonName (locs : List Location) : PyStr :=
  if baseName (commonPath locs) ≠ [] then baseName (commonPath locs)
  else baseName (locs.headD []).dropLast

def scanPaths (d : Disk) (paths : List PurePath) : Except CreateError (PyStr × List FileSpec) :=
  match paths.map d.resolve with
  | [loc] => scanPath d loc
  | locs => do
    let allSpecs ← scanAll d locs
    if allSpecs = [] then .error .noFiles else .ok (commonName locs, allSpecs)

def minPieceSize : ℕ := 16 * 1024
def maxPieceSize : ℕ := 16 * 1024 * 1024
def targetPieces : ℕ := 1500

/-- The least power of two that is not below the target, within the limits. The logarithm of the
code is a float, which is exact enough below the upper limit. -/
def optimalPieceSize (totalBytes : ℕ) : ℕ :=
  if totalBytes = 0 then minPieceSize
  else max minPieceSize
    (min (2 ^ Nat.clog 2 ((totalBytes + (targetPieces - 1)) / targetPieces)) maxPieceSize)

def choosePieceLength (totalSize : ℕ) : Option ℤ → Except CreateError ℕ
  | none => .ok (optimalPieceSize totalSize)
  | some pieceLength =>
    if pieceLength < minPieceSize then .error (.belowMinimum pieceLength)
    else if pieceLength.toNat &&& (pieceLength.toNat - 1) ≠ 0 then
      .error (.notPowerOfTwo pieceLength)
    else .ok pieceLength.toNat

inductive Trackers where
  | flat (urls : List PyStr)
  | tiers (lists : List (List PyStr))
  deriving DecidableEq, Repr

def Trackers.announce : Trackers → Option PyStr
  | .flat urls => urls.head?
  | .tiers lists => lists.findSome? List.head?

def Trackers.announceList : Trackers → Option (List (List PyStr))
  | .flat urls => if urls = [] then none else some [urls]
  | .tiers lists => if lists = [] then none else some lists

structure Options where
  trackers : Option Trackers
  pieceLength : Option ℤ
  comment : Option PyStr
  isPrivate : Bool
  createdBy : PyStr

/-- Every file is read from its start; the first read is asked for a whole piece. -/
def digestFiles (reader : ℕ → Reader) (d : Disk) (specs : List FileSpec) (pieceLength : ℕ) :
    Except CreateError Bytes :=
  if specs ≠ [] ∧ 2 ^ 63 ≤ pieceLength then .error .overflow
  else .ok (hashPieces Sha1.sha1 pieceLength reader (specs.map fun spec => d.content spec.diskPath))

def isSingle : List FileSpec → Bool
  | [spec] => spec.torrentPath.length = 1
  | _ => false

def createdInfo (rootName : PyStr) (pieceLength : ℕ) (piecesRaw : Bytes) (specs : List FileSpec)
    (isPrivate : Bool) : TorrentInfo where
  name := rootName
  pieceLength := pieceLength
  piecesRaw := piecesRaw
  length := if isSingle specs then (specs.map fun spec => (spec.length : ℤ)).head? else none
  files :=
    if isSingle specs then none
    else some (specs.map fun spec => ⟨spec.torrentPath, spec.length⟩)
  isPrivate := isPrivate

def infoHash (maxDigits : ℕ) (info : TorrentInfo) : Serialized Bytes := do
  let infoDict ← infoToBencode info
  match encode maxDigits (.dict infoDict) with
  | .error e => .error (.codec e)
  | .ok data => .ok (Sha1.sha1 data)

def createTorrent (reader : ℕ → Reader) (maxDigits : ℕ) (now : ℤ) (d : Disk) (paths : List PurePath)
    (opts : Options) : Except CreateError TorrentMeta := do
  let (rootName, specs) ← scanPaths d paths
  let totalSize := (specs.map fun spec => spec.length).sum
  let pieceLength ← choosePieceLength totalSize opts.pieceLength
  let piecesRaw ← digestFiles reader d specs pieceLength
  let info := createdInfo rootName pieceLength piecesRaw specs opts.isPrivate
  let hash ← (infoHash maxDigits info).mapError .serialize
  .ok {
    info := info
    infoHash := hash
    announce := opts.trackers.bind Trackers.announce
    announceList := opts.trackers.bind Trackers.announceList
    creationDate := some now
    comment := opts.comment
    createdBy := some opts.createdBy }

end TorrentCreation
