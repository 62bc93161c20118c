import Aiobt.FileSystem
import Aiobt.TorrentMetadata

/-! # Storage backends

The file queue, `DiskStorage` and `CompactStorage` of the `storage` package. Each operation takes
the file system and returns it, changed, next to its result. -/
namespace TorrentStorage

open ByteStrings PosixPaths FileSystem SurrogateUtf8 TorrentMetadata

inductive StorageError where
  | os (error : OsError)
  /-- `RuntimeError` of a `CompactStorage` without a blob. -/
  | notPrepared
  deriving DecidableEq, Repr

def hasNull (p : PurePath) : Bool := p.parts.any fun part => part.contains 0

theorem hasNull_eq_false {p : PurePath} : hasNull p = false ↔ ∀ part ∈ p.parts, 0 ∉ part := by
  simp [hasNull]

theorem parents_hasNull {p : PurePath} (h : hasNull p = false) :
    (parents p).any hasNull = false := by
  rw [List.any_eq_false]
  intro q hq
  obtain ⟨parts, hparts, rfl⟩ := List.mem_map.mp hq
  have hpre : parts <+: p.parts :=
    ((List.mem_inits _ _).mp hparts).trans (List.dropLast_prefix _)
  rw [Bool.not_eq_true, hasNull_eq_false]
  rw [hasNull_eq_false] at h
  intro part hm
  exact h part (hpre.subset hm)

def syncRead (fs : Files) (path : PurePath) (offset length : ℤ) : Except OsError Bytes :=
  if hasNull path then .error .nullByte
  else match fs.node (fs.locate path) with
  | none => .error .notFound
  | some .dir => .error .isDirectory
  | some (.file content) => do
    let data ← readAt content offset length
    if (data.length : ℤ) ≠ length then .error (.shortRead length data.length) else .ok data

def seekWrite (fs : Files) (loc : Location) (content : Bytes) (offset : ℤ) (data : Bytes) :
    Effect Unit :=
  if offset < 0 then (.error .invalidArgument, fs)
  else (.ok (), fs.put loc (.file (writeAt content offset.toNat data)))

/-- `_sync_write`: a missing file is created, when its directory exists. -/
def syncWrite (fs : Files) (path : PurePath) (offset : ℤ) (data : Bytes) : Effect Unit :=
  let loc := fs.locate path
  if hasNull path then (.error .nullByte, fs)
  else match fs.node loc with
    | some (.file content) => seekWrite fs loc content offset data
    | some .dir => (.error .isDirectory, fs)
    | none =>
      if fs.node loc.dropLast = some .dir then
        seekWrite (fs.put loc (.file [])) loc [] offset data
      else (.error .notFound, fs)

/-- `_sync_ensure`: an existing file is left as it is. A path with a null never exists. -/
def syncEnsure (fs : Files) (path : PurePath) (length : ℤ) : Effect Unit :=
  if (parents path).any hasNull then (.error .nullByte, fs)
  else match mkdirs ((parents path).map fs.locate) fs with
    | (.error e, fs) => (.error e, fs)
    | (.ok (), fs) =>
      let loc := fs.locate path
      if hasNull path then (.error .nullByte, fs)
      else if (fs.node loc).isSome then (.ok (), fs)
      else if length < 0 then (.error .invalidArgument, fs.put loc (.file []))
      else (.ok (), fs.put loc (.file (List.replicate length.toNat 0)))

theorem syncEnsure_existing {fs : Files} {path : PurePath} (hnull : hasNull path = false)
    (hdirs : ∀ d ∈ (parents path).map fs.locate, fs.node d = some .dir)
    (hsome : (fs.node (fs.locate path)).isSome = true) (length : ℤ) :
    syncEnsure fs path length = (.ok (), fs) := by
  rw [syncEnsure, parents_hasNull hnull, mkdirs_existing hdirs]
  simp only [hnull, hsome, Bool.false_eq_true, if_false, if_true]

structure FileSlice where
  path : PurePath
  fileOffset : ℤ
  torrentOffset : ℤ
  length : ℤ
  deriving DecidableEq, Repr

structure DiskStorage where
  root : PurePath
  slices : List FileSlice
  totalLength : ℤ
  pieceLength : ℤ
  deriving DecidableEq, Repr

namespace DiskStorage

def new (root : PyStr) : DiskStorage := ⟨parse root, [], 0, 0⟩

def opened (st : DiskStorage) (totalLength pieceLength : ℤ) : DiskStorage :=
  { st with totalLength := totalLength, pieceLength := pieceLength }

def prepareLoop (base : PurePath) : List FileEntry → ℤ → List FileSlice → Files →
    Except OsError Unit × List FileSlice × Files
  | [], _, slices, fs => (.ok (), slices, fs)
  | entry :: rest, offset, slices, fs =>
    let filePath := join base entry.relativePath
    let slices := slices ++ [⟨filePath, 0, offset, entry.length⟩]
    match syncEnsure fs filePath entry.length with
    | (.error e, fs) => (.error e, slices, fs)
    | (.ok (), fs) => prepareLoop base rest (offset + entry.length) slices fs

def prepareFiles (st : DiskStorage) (files : Option (List FileEntry)) (name : PyStr) (fs : Files) :
    Except OsError Unit × DiskStorage × Files :=
  match files with
  | some files =>
    let (r, slices, fs) := prepareLoop (join st.root (parse name)) files 0 [] fs
    (r, { st with slices := slices }, fs)
  | none =>
    let filePath := join st.root (parse name)
    let (r, fs) := syncEnsure fs filePath st.totalLength
    (r, { st with slices := [⟨filePath, 0, 0, st.totalLength⟩] }, fs)

def overlaps (offset stop : ℤ) (sl : FileSlice) : Bool :=
  sl.torrentOffset < stop ∧ sl.torrentOffset + sl.length > offset

def slicesFor (st : DiskStorage) (offset length : ℤ) : List FileSlice :=
  st.slices.filter (overlaps offset (offset + length))

def readLoop (fs : Files) : List FileSlice → ℤ → ℤ → Except OsError Bytes
  | [], _, _ => .ok []
  | sl :: rest, offset, remaining => do
    let intoSlice := max 0 (offset - sl.torrentOffset)
    let toRead := min remaining (sl.length - intoSlice)
    let data ← syncRead fs sl.path (sl.fileOffset + intoSlice) toRead
    if remaining - toRead ≤ 0 then .ok data
    else do
      let chunks ← readLoop fs rest (offset + toRead) (remaining - toRead)
      .ok (data ++ chunks)

def read (st : DiskStorage) (fs : Files) (offset length : ℤ) : Except OsError Bytes :=
  readLoop fs (st.slicesFor offset length) offset length

def writeLoop (data : Bytes) : List FileSlice → ℤ → ℤ → ℤ → Files → Effect Unit
  | [], _, _, _, fs => (.ok (), fs)
  | sl :: rest, offset, pos, remaining, fs =>
    let intoSlice := max 0 (offset - sl.torrentOffset)
    let toWrite := min remaining (sl.length - intoSlice)
    match syncWrite fs sl.path (sl.fileOffset + intoSlice) (pySlice data pos (pos + toWrite)) with
    | (.error e, fs) => (.error e, fs)
    | (.ok (), fs) =>
      if remaining - toWrite ≤ 0 then (.ok (), fs)
      else writeLoop data rest (offset + toWrite) (pos + toWrite) (remaining - toWrite) fs

def write (st : DiskStorage) (fs : Files) (offset : ℤ) (data : Bytes) : Effect Unit :=
  writeLoop data (st.slicesFor offset data.length) offset 0 data.length fs

def close (st : DiskStorage) : DiskStorage := { st with slices := [] }

end DiskStorage

structure CompactStorage where
  root : PurePath
  blobPath : Option PurePath
  totalLength : ℤ
  pieceLength : ℤ
  deriving DecidableEq, Repr

def hexDigit (n : ℕ) : ℕ := if n < 10 then 48 + n else 87 + n

def hex (b : Bytes) : PyStr := b.flatMap fun x => [hexDigit (x.toNat / 16), hexDigit (x.toNat % 16)]

def blobSuffix : PyStr := [46, 98, 108, 111, 98]

namespace CompactStorage

def new (root : PyStr) : CompactStorage := ⟨parse root, none, 0, 0⟩

def opened (st : CompactStorage) (totalLength pieceLength : ℤ) : CompactStorage :=
  { st with totalLength := totalLength, pieceLength := pieceLength }

def prepare (st : CompactStorage) (infoHashHex : PyStr) (fs : Files) :
    Except OsError Unit × CompactStorage × Files :=
  if hasNull st.root then (.error .nullByte, st, fs)
  else
    let dirs := (st.root.parts.inits.map fun parts => fs.locate ⟨st.root.root, parts⟩)
    match mkdirs dirs fs with
    | (.error e, fs) => (.error e, st, fs)
    | (.ok (), fs) =>
      let blobPath := join st.root (parse (infoHashHex ++ blobSuffix))
      let (r, fs) := syncEnsure fs blobPath st.totalLength
      (r, { st with blobPath := some blobPath }, fs)

def read (st : CompactStorage) (fs : Files) (offset length : ℤ) : Except StorageError Bytes :=
  match st.blobPath with
  | none => .error .notPrepared
  | some path => (syncRead fs path offset length).mapError .os

def write (st : CompactStorage) (fs : Files) (offset : ℤ) (data : Bytes) :
    Except StorageError Unit × Files :=
  match st.blobPath with
  | none => (.error .notPrepared, fs)
  | some path =>
    let (r, fs) := syncWrite fs path offset data
    (r.mapError .os, fs)

def close (st : CompactStorage) : CompactStorage := { st with blobPath := none }

end CompactStorage

end TorrentStorage
