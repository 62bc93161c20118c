import Aiobt.StorageRefinement
import Aiobt.PieceTracker

/-! # One storage backend for all torrents of a client

`Client` hands the same backend object to every session that it registers. A registration opens
the backend anew and lays it out for the new torrent; a removal may close it. -/
namespace ClientStorage

open ByteStrings PosixPaths FileSystem SurrogateUtf8 TorrentMetadata TorrentStorage SliceLoops
open StorageRefinement

inductive Backend where
  | disk (st : DiskStorage)
  | compact (st : CompactStorage)

namespace Backend

def opened (totalLength pieceLength : ℤ) : Backend → Backend
  | .disk st => .disk (st.opened totalLength pieceLength)
  | .compact st => .compact (st.opened totalLength pieceLength)

def layOut (torrent : TorrentMeta) (fs : Files) :
    Backend → Except OsError Unit × Backend × Files
  | .disk st =>
    let (r, st, fs) := st.prepareFiles torrent.info.files torrent.info.name fs
    (r, .disk st, fs)
  | .compact st =>
    let (r, st, fs) := st.prepare (hex torrent.infoHash) fs
    (r, .compact st, fs)

def read (fs : Files) (offset length : ℤ) : Backend → Except StorageError Bytes
  | .disk st => (st.read fs offset length).mapError .os
  | .compact st => st.read fs offset length

def write (fs : Files) (offset : ℤ) (data : Bytes) : Backend → Except StorageError Unit × Files
  | .disk st =>
    let (r, fs) := st.write fs offset data
    (r.mapError .os, fs)
  | .compact st => st.write fs offset data

def close : Backend → Backend
  | .disk st => .disk st.close
  | .compact st => .compact st.close

end Backend

structure Session where
  id : ℕ
  torrent : TorrentMeta
  deriving DecidableEq

structure Client where
  backend : Backend
  fs : Files
  sessions : List (Bytes × Session)
  /-- Every session ever registered: a removed one still holds the backend. -/
  created : List Session

namespace Client

def Registered (c : Client) (s : Session) : Prop := ∃ infoHash, (infoHash, s) ∈ c.sessions

/-- `_register`. The session is built first, which needs the total length and the pieces. -/
def register (c : Client) (torrent : TorrentMeta) : Client :=
  match c.sessions.lookup torrent.infoHash with
  | some _ => c
  | none =>
    match torrent.info.totalLength with
    | none => c
    | some totalLength =>
      match PieceTracker.init torrent.info.pieceLength totalLength torrent.info.piecesRaw with
      | none => c
      | some _ =>
        match (c.backend.opened totalLength torrent.info.pieceLength).layOut torrent c.fs with
        | (.error _, backend, fs) => { c with backend := backend, fs := fs }
        | (.ok (), backend, fs) =>
          { backend := backend
            fs := fs
            sessions := c.sessions ++ [(torrent.infoHash, ⟨c.created.length, torrent⟩)]
            created := c.created ++ [⟨c.created.length, torrent⟩] }

def remove (c : Client) (infoHash : Bytes) (deleteData : Bool) : Client :=
  match c.sessions.lookup infoHash with
  | none => c
  | some _ =>
    { c with
      sessions := c.sessions.filter fun entry => entry.1 ≠ infoHash
      backend := if deleteData then c.backend.close else c.backend }

end Client

inductive Action where
  | register (torrent : TorrentMeta)
  | remove (infoHash : Bytes) (deleteData : Bool)
  | read (s : Session) (offset length : ℤ)
  | write (s : Session) (offset : ℤ) (data : Bytes)

/-- Reads and writes go through `session.storage`, whichever session it is. -/
def Client.perform (c : Client) : Action → Client
  | .register torrent => c.register torrent
  | .remove infoHash deleteData => c.remove infoHash deleteData
  | .read _ _ _ => c
  | .write _ offset data => { c with fs := (c.backend.write c.fs offset data).2 }

/-- The slices that `prepare_files` records when nothing goes wrong. -/
def entrySlices (base : PurePath) : List FileEntry → ℤ → List FileSlice
  | [], _ => []
  | entry :: rest, offset =>
    ⟨join base entry.relativePath, 0, offset, entry.length⟩ ::
      entrySlices base rest (offset + entry.length)

def Backend.slices (torrent : TorrentMeta) : Backend → List FileSlice
  | .disk st =>
    entrySlices (join st.root (parse torrent.info.name))
      (layoutEntries torrent.info.files (torrent.info.totalLength.getD 0)) 0
  | .compact st =>
    [⟨blobPathOf st.root torrent.infoHash, 0, 0, torrent.info.totalLength.getD 0⟩]

def Backend.LaidOutFor (torrent : TorrentMeta) : Backend → Prop
  | .disk st => st.slices = Backend.slices torrent (.disk st)
  | .compact st => st.blobPath = some (blobPathOf st.root torrent.infoHash)

def Client.filesOf (c : Client) (s : Session) : List Location :=
  locations c.fs (c.backend.slices s.torrent)

section
variable {fs : Files} {base : PurePath}

theorem syncEnsure_extends (fs : Files) (path : PurePath) (length : ℤ) :
    Extends fs (syncEnsure fs path length).2 := by
  unfold syncEnsure
  split
  · exact Extends.refl fs
  · have hdirs := mkdirs_extends ((parents path).map fs.locate) fs
    split
    · next h =>
      rw [h] at hdirs
      exact hdirs
    · next fs' h =>
      rw [h] at hdirs
      simp only
      split
      · exact hdirs
      · split
        · exact hdirs
        · next hsome =>
          have hnone : fs'.node (fs'.locate path) = none := by simpa using hsome
          split
          · exact hdirs.trans (extends_put hnone)
          · exact hdirs.trans (extends_put hnone)

theorem prepareLoop_extends (entries : List FileEntry) (offset : ℤ) (before : List FileSlice)
    (fs : Files) : Extends fs (DiskStorage.prepareLoop base entries offset before fs).2.2 := by
  induction entries generalizing offset before fs with
  | nil => exact Extends.refl fs
  | cons entry rest ih =>
    have hens := syncEnsure_extends fs (join base entry.relativePath) entry.length
    rw [DiskStorage.prepareLoop]
    split
    · next h =>
      rw [h] at hens
      exact hens
    · next h =>
      rw [h] at hens
      exact hens.trans (ih ..)

theorem prepareLoop_slices {entries : List FileEntry} {offset : ℤ} {before : List FileSlice}
    {fs : Files} (h : (DiskStorage.prepareLoop base entries offset before fs).1 = .ok ()) :
    (DiskStorage.prepareLoop base entries offset before fs).2.1 =
      before ++ entrySlices base entries offset := by
  induction entries generalizing offset before fs with
  | nil => simp [DiskStorage.prepareLoop, entrySlices]
  | cons entry rest ih =>
    rw [DiskStorage.prepareLoop] at h ⊢
    split
    · next heq =>
      rw [heq] at h
      cases h
    · next heq =>
      rw [heq] at h
      rw [ih h, entrySlices, List.append_assoc, List.singleton_append]

theorem entrySlices_adjacent {entries : List FileEntry} {start : ℕ}
    (h : ∀ sl ∈ entrySlices base entries start, 0 ≤ sl.length) :
    Adjacent start (entrySlices base entries start) := by
  induction entries generalizing start with
  | nil => exact .nil
  | cons entry rest ih =>
    obtain ⟨n, hn⟩ := Int.eq_ofNat_of_zero_le (h _ (List.mem_cons_self ..))
    simp only at hn
    rw [entrySlices, hn] at h ⊢
    rw [← Nat.cast_add] at h ⊢
    exact .cons (ih fun sl hm => h sl (List.mem_cons_of_mem _ hm))

end

namespace Backend

variable {b : Backend} {torrent : TorrentMeta} {fs : Files}

@[simp] theorem slices_opened (totalLength pieceLength : ℤ) :
    (b.opened totalLength pieceLength).slices torrent = b.slices torrent := by
  cases b with
  | disk st => rfl
  | compact st => rfl

@[simp] theorem slices_close : b.close.slices torrent = b.slices torrent := by
  cases b with
  | disk st => rfl
  | compact st => rfl

theorem slices_layOut (other : TorrentMeta) :
    (b.layOut other fs).2.1.slices torrent = b.slices torrent := by
  cases b with
  | disk st =>
    simp only [layOut, prepareFiles_eq]
    rfl
  | compact st =>
    simp only [layOut, CompactStorage.prepare]
    split
    · rfl
    · split <;> rfl

theorem layOut_extends (b : Backend) (torrent : TorrentMeta) (fs : Files) :
    Extends fs (b.layOut torrent fs).2.2 := by
  cases b with
  | disk st =>
    simp only [layOut, prepareFiles_eq]
    exact prepareLoop_extends ..
  | compact st =>
    simp only [layOut, CompactStorage.prepare]
    split
    · exact Extends.refl fs
    · have hdirs := mkdirs_extends
        (st.root.parts.inits.map fun parts => fs.locate ⟨st.root.root, parts⟩) fs
      split
      · next h =>
        rw [h] at hdirs
        exact hdirs
      · next h =>
        rw [h] at hdirs
        exact hdirs.trans (syncEnsure_extends ..)

/-- A registration that goes through leaves the backend laid out for its torrent. -/
theorem laidOutFor_layOut {totalLength pieceLength : ℤ}
    (htotal : torrent.info.totalLength = some totalLength)
    (h : ((b.opened totalLength pieceLength).layOut torrent fs).1 = .ok ()) :
    ((b.opened totalLength pieceLength).layOut torrent fs).2.1.LaidOutFor torrent := by
  cases b with
  | disk st =>
    simp only [opened, layOut, prepareFiles_eq] at h ⊢
    simp only [LaidOutFor, slices, htotal, Option.getD_some]
    exact (prepareLoop_slices h).trans (List.nil_append _)
  | compact st =>
    simp only [opened, layOut, CompactStorage.prepare] at h ⊢
    split
    · next hnull =>
      rw [if_pos hnull] at h
      cases h
    · next hnull =>
      rw [if_neg hnull] at h
      split
      · next heq =>
        rw [heq] at h
        cases h
      · rfl

end Backend

end ClientStorage
