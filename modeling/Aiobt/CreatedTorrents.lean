import Aiobt.TorrentCreation
import Aiobt.ClientStorage
import Mathlib.Algebra.Order.BigOperators.Group.List
import Mathlib.Data.Finset.Sort

/-! # A new torrent over the files that it was made of

A created torrent is prepared in the directory of its source, and its pieces are checked against
what is there. -/
namespace CreatedTorrents

open ByteStrings PosixPaths FileSystem FlatStore SurrogateUtf8 TorrentMetadata TorrentStorage
  SliceLoops StorageRefinement ClientStorage PieceTracker PieceHashing TorrentSerialization
  TorrentCreation

structure Prepared where
  tracker : Tracker
  storage : DiskStorage
  files : Files

def storageAt (root : PurePath) : DiskStorage := ⟨root, [], 0, 0⟩

def prepare (d : Disk) (root : PurePath) (info : TorrentInfo) : Option Prepared :=
  match info.totalLength with
  | none => none
  | some total =>
    match PieceTracker.init info.pieceLength total info.piecesRaw with
    | none => none
    | some tracker =>
      match ((storageAt root).opened total info.pieceLength).prepareFiles info.files info.name
          d.files with
      | (.error _, _, _) => none
      | (.ok (), storage, files) => some ⟨tracker, storage, files⟩

/-- The storage returns for every piece bytes with its hash. -/
def Prepared.Verifies (p : Prepared) : Prop :=
  ∀ spec ∈ p.tracker.specs, ∃ data,
    p.storage.read p.files spec.offset spec.length = .ok data ∧ Sha1.sha1 data = spec.hash

section
variable {ε : Type} (sha1 : Bytes → Bytes) (read : ℤ → ℤ → Except ε Bytes)

def checkPiece (t : Tracker) (idx : ℕ) : Tracker :=
  if t.pieceCount ≤ idx then t
  else match t.specs[idx]? with
  | none => t
  | some spec =>
    match read spec.offset spec.length with
    | .error _ => t
    | .ok data =>
      if (data.length : ℤ) = spec.length ∧ verifyPiece sha1 data spec.hash then t.markHave idx else t

/-- `check_resume` with nothing else running; without resume data every piece is checked. -/
def checkResume (haveFromResume : Finset ℕ) (t : Tracker) : Tracker :=
  let pieces := if haveFromResume ≠ ∅ then haveFromResume else Finset.range t.pieceCount.toNat
  (pieces.sort (· ≤ ·)).foldl (checkPiece sha1 read) t

/-- The bytes of a piece can be read in full and have its hash. -/
def Valid (spec : PieceSpec) : Prop :=
  ∃ data, read spec.offset spec.length = .ok data ∧ (data.length : ℤ) = spec.length ∧
    sha1 data = spec.hash

end

section
variable {ε : Type} (sha1 : Bytes → Bytes) (read : ℤ → ℤ → Except ε Bytes) {t : Tracker}

theorem checkPiece_spec (hlen : t.specs.length = t.pieceCount.toNat) (idx : ℕ) :
    (checkPiece sha1 read t idx).specs = t.specs ∧
      (checkPiece sha1 read t idx).pieceCount = t.pieceCount ∧
      (∀ i, i ∈ (checkPiece sha1 read t idx).got ↔
        i ∈ t.got ∨ (i = idx ∧ ∃ spec, t.specs[idx]? = some spec ∧ Valid sha1 read spec)) := by
  have hsame : ∀ hnot : ¬ ∃ spec, t.specs[idx]? = some spec ∧ Valid sha1 read spec,
      t.specs = t.specs ∧ t.pieceCount = t.pieceCount ∧ ∀ i, i ∈ t.got ↔
        i ∈ t.got ∨ (i = idx ∧ ∃ spec, t.specs[idx]? = some spec ∧ Valid sha1 read spec) := by
    intro hnot
    refine ⟨rfl, rfl, fun i => ⟨Or.inl, ?_⟩⟩
    rintro (hi | ⟨-, hv⟩)
    · exact hi
    · exact absurd hv hnot
  unfold checkPiece
  split
  · next hout =>
    apply hsame
    rintro ⟨spec, hspec, -⟩
    have := (List.getElem?_eq_some_iff.mp hspec).1
    omega
  · split
    · next hnone =>
      apply hsame
      rintro ⟨spec, hspec, -⟩
      cases hnone.symm.trans hspec
    · next spec hspec =>
      split
      · next e hread =>
        apply hsame
        rintro ⟨spec', hspec', data, hdata, -⟩
        obtain rfl := Option.some.inj (hspec.symm.trans hspec')
        cases hread.symm.trans hdata
      · next data hread =>
        split
        · next hgood =>
          refine ⟨rfl, rfl, fun i => ?_⟩
          have hvalid : Valid sha1 read spec := ⟨data, hread, hgood.1, by
            simpa [verifyPiece] using hgood.2⟩
          rw [Tracker.markHave_got, Finset.mem_insert]
          constructor
          · rintro (rfl | hi)
            · exact Or.inr ⟨rfl, spec, hspec, hvalid⟩
            · exact Or.inl hi
          · rintro (hi | ⟨rfl, -⟩)
            · exact Or.inr hi
            · exact Or.inl rfl
        · next hbad =>
          apply hsame
          rintro ⟨spec', hspec', data', hdata, hlength, hhash⟩
          obtain rfl := Option.some.inj (hspec.symm.trans hspec')
          obtain rfl := Except.ok.inj (hread.symm.trans hdata)
          exact hbad ⟨hlength, by simpa [verifyPiece] using hhash⟩

/-- The loop marks the pieces that the reads show to be there; `read` is told which piece is read. -/
theorem foldl_checkPiece (read : ℕ → ℤ → ℤ → Except ε Bytes) (todo : List ℕ)
    (hlen : t.specs.length = t.pieceCount.toNat) :
    (todo.foldl (fun t idx => checkPiece sha1 (read idx) t idx) t).specs = t.specs ∧
      (todo.foldl (fun t idx => checkPiece sha1 (read idx) t idx) t).pieceCount = t.pieceCount ∧
      ∀ i, i ∈ (todo.foldl (fun t idx => checkPiece sha1 (read idx) t idx) t).got ↔
        i ∈ t.got ∨ (i ∈ todo ∧ ∃ spec, t.specs[i]? = some spec ∧ Valid sha1 (read i) spec) := by
  induction todo generalizing t with
  | nil => exact ⟨rfl, rfl, fun i => by simp⟩
  | cons idx rest ih =>
    obtain ⟨hspecs, hcount, hgot⟩ := checkPiece_spec sha1 (read idx) hlen idx
    obtain ⟨hspecs', hcount', hgot'⟩ := ih (by rw [hspecs, hcount]; exact hlen)
    rw [List.foldl_cons]
    refine ⟨hspecs'.trans hspecs, hcount'.trans hcount, fun i => ?_⟩
    rw [hgot', hgot, hspecs, List.mem_cons, or_assoc]
    constructor
    · rintro (hi | ⟨rfl, hv⟩ | ⟨hi, hv⟩)
      · exact Or.inl hi
      · exact Or.inr ⟨Or.inl rfl, hv⟩
      · exact Or.inr ⟨Or.inr hi, hv⟩
    · rintro (hi | ⟨rfl | hi, hv⟩)
      · exact Or.inl hi
      · exact Or.inr (Or.inl ⟨rfl, hv⟩)
      · exact Or.inr (Or.inr ⟨hi, hv⟩)

/-- The check of a new tracker completes it exactly if every piece is there. -/
theorem checkResume_complete_iff (hlen : t.specs.length = t.pieceCount.toNat)
    (hcount : 0 ≤ t.pieceCount) (hgot : t.got = ∅) :
    (checkResume sha1 read ∅ t).isComplete ↔ ∀ spec ∈ t.specs, Valid sha1 read spec := by
  obtain ⟨-, hsame, hmem⟩ := foldl_checkPiece sha1 (fun _ => read)
    ((Finset.range t.pieceCount.toNat).sort (· ≤ ·)) hlen
  have hcheck : checkResume sha1 read ∅ t =
      ((Finset.range t.pieceCount.toNat).sort (· ≤ ·)).foldl (checkPiece sha1 read) t := by
    simp [checkResume]
  simp only [hgot, Finset.notMem_empty, false_or, Finset.mem_sort, Finset.mem_range] at hmem
  rw [Tracker.isComplete, hcheck, hsame]
  generalize ((Finset.range t.pieceCount.toNat).sort (· ≤ ·)).foldl (checkPiece sha1 read) t = t' at *
  have hsub : t'.got ⊆ Finset.range t.pieceCount.toNat := fun i hi =>
    Finset.mem_range.mpr ((hmem i).mp hi).1
  constructor
  · intro hcard spec hspec
    have hall : t'.got = Finset.range t.pieceCount.toNat :=
      Finset.eq_of_subset_of_card_le hsub (by rw [Finset.card_range]; omega)
    obtain ⟨i, hi, rfl⟩ := List.mem_iff_getElem.mp hspec
    have hin : i ∈ t'.got := by
      rw [hall, Finset.mem_range, ← hlen]
      exact hi
    obtain ⟨-, spec, hat, hvalid⟩ := (hmem i).mp hin
    rw [List.getElem?_eq_getElem hi] at hat
    rw [Option.some.inj hat]
    exact hvalid
  · intro hall
    have hfull : t'.got = Finset.range t.pieceCount.toNat := by
      apply hsub.antisymm
      intro i hi
      have hlt := Finset.mem_range.mp hi
      rw [← hlen] at hlt
      exact (hmem i).mpr ⟨Finset.mem_range.mp hi, t.specs[i], List.getElem?_eq_getElem hlt,
        hall _ (List.getElem_mem hlt)⟩
    rw [hfull, Finset.card_range]
    omega

end

structure Rooted (d : Disk) (root : PurePath) (loc : Location) : Prop where
  plain : dotdot ∉ root.parts
  parent : d.files.locate root = loc.dropLast

section
variable {d : Disk} {root p : PurePath} {loc dir : Location} {n : Node}

theorem dir_of_prefix (h : d.files.node loc = some n) (hpre : dir <+: loc) (hne : dir ≠ loc) :
    d.files.node dir = some .dir := by
  induction loc using List.reverseRecOn generalizing n with
  | nil => exact absurd (List.prefix_nil.mp hpre) hne
  | append_singleton init last ih =>
    have hparent := d.parent_dir _ n h (by simp)
    rw [List.dropLast_concat] at hparent
    rcases List.prefix_concat_iff.mp hpre with heq | hinit
    · exact absurd heq hne
    · by_cases hsame : dir = init
      · rw [hsame]
        exact hparent
      · exact ih hparent hinit hsame

theorem root_dir (d : Disk) : d.files.node [] = some .dir := by
  by_cases hcwd : d.files.cwd = []
  · have h := d.cwd_dir
    rw [hcwd] at h
    exact h
  · exact dir_of_prefix d.cwd_dir List.nil_prefix (Ne.symm hcwd)

theorem dotdot_notMem (h : d.files.node loc = some n) : dotdot ∉ loc :=
  fun hm => (d.names loc n h _ hm).ne_dotdot rfl

def startOf (d : Disk) (p : PurePath) : Location := if p.isAbsolute then [] else d.files.cwd

theorem startOf_dir (d : Disk) (p : PurePath) : d.files.node (startOf d p) = some .dir := by
  unfold startOf
  split
  · exact root_dir d
  · exact d.cwd_dir

theorem locate_plain (hp : dotdot ∉ p.parts) : d.files.locate p = startOf d p ++ p.parts := by
  unfold Files.locate startOf
  split
  · rw [foldl_pushPart_plain true hp, List.nil_append]
  · rw [foldl_pushPart_plain true, List.nil_append]
    rw [List.mem_append, not_or]
    exact ⟨dotdot_notMem d.cwd_dir, hp⟩

theorem hasNull_of_exists (hp : dotdot ∉ p.parts) (h : d.files.node (d.files.locate p) = some n) :
    hasNull p = false := by
  rw [hasNull_eq_false]
  intro part hpart
  refine (d.names _ n h part ?_).no_null
  rw [locate_plain hp]
  exact List.mem_append_right _ hpart

theorem ensure_exists (hp : dotdot ∉ p.parts) (h : d.files.node (d.files.locate p) = some n)
    (length : ℤ) : syncEnsure d.files p length = (.ok (), d.files) := by
  refine syncEnsure_existing (hasNull_of_exists hp h) ?_ (by rw [h]; rfl) length
  intro dir hdir
  obtain ⟨q, hq, rfl⟩ := List.mem_map.mp hdir
  obtain ⟨parts, hparts, rfl⟩ := List.mem_map.mp hq
  have hpre : parts <+: p.parts.dropLast := (List.mem_inits _ _).mp hparts
  have hq : dotdot ∉ parts := fun hm => hp (List.dropLast_subset _ (hpre.subset hm))
  have hloc : d.files.locate ⟨p.root, parts⟩ = startOf d p ++ parts := locate_plain hq
  rw [hloc]
  by_cases hend : p.parts = []
  · rw [hend] at hpre
    rw [List.prefix_nil.mp hpre, List.append_nil]
    exact startOf_dir d p
  · refine dir_of_prefix h ?_ ?_
    · rw [locate_plain hp]
      exact (List.prefix_append_right_inj _).mpr (hpre.trans (List.dropLast_prefix _))
    · rw [locate_plain hp]
      intro heq
      have hlen := hpre.length_le
      have hpos := List.length_pos_iff.mpr hend
      rw [List.append_cancel_left heq, List.length_dropLast] at hlen
      omega

theorem parse_baseName (h : d.files.node loc = some n) :
    parse (baseName loc) = ⟨.relative, loc.getLast?.toList⟩ := by
  unfold baseName
  cases hlast : loc.getLast? with
  | none => rfl
  | some last =>
    have hname := d.names loc n h last (List.mem_of_getLast? hlast)
    exact parse_part hname.no_slash hname.ne_nil hname.ne_dot

theorem dropLast_append_getLast? (loc : Location) :
    loc.dropLast ++ loc.getLast?.toList = loc := by
  cases hlast : loc.getLast? with
  | none =>
    rw [List.getLast?_eq_none_iff.mp hlast]
    rfl
  | some last =>
    obtain ⟨init, rfl⟩ := List.getLast?_eq_some_iff.mp hlast
    rw [List.dropLast_concat, Option.toList_some]

theorem locate_below (hroot : Rooted d root loc) (h : d.files.node loc = some n) {rel : List Part}
    (hrel : dotdot ∉ rel) :
    dotdot ∉ (join (join root (parse (baseName loc))) ⟨.relative, rel⟩).parts ∧
      d.files.locate (join (join root (parse (baseName loc))) ⟨.relative, rel⟩) = loc ++ rel := by
  have hbase : join (join root (parse (baseName loc))) ⟨.relative, rel⟩ =
      ⟨root.root, root.parts ++ loc.getLast?.toList ++ rel⟩ := by
    rw [parse_baseName h, join_relative rfl, join_relative rfl]
  have hlast : dotdot ∉ loc.getLast?.toList := by
    intro hm
    exact dotdot_notMem h (List.mem_of_getLast? (Option.mem_toList.mp hm))
  have hparts : dotdot ∉ root.parts ++ loc.getLast?.toList ++ rel := by
    simp only [List.mem_append, not_or]
    exact ⟨⟨hroot.plain, hlast⟩, hrel⟩
  have hstart := hroot.parent
  rw [locate_plain hroot.plain] at hstart
  rw [hbase]
  refine ⟨hparts, ?_⟩
  have hsame : startOf d ⟨root.root, root.parts ++ loc.getLast?.toList ++ rel⟩ = startOf d root := rfl
  rw [locate_plain hparts, hsame, ← List.append_assoc, ← List.append_assoc, hstart,
    dropLast_append_getLast?]

end

def LoneFile (d : Disk) (loc : Location) : Prop :=
  d.files.node loc = some .dir ∧ ∃ spec, scanDir d loc = [spec] ∧ spec.torrentPath.length = 1

/-- A spec tells of a file below the location that was scanned. -/
structure Found (d : Disk) (spec : FileSpec) : Prop where
  file : d.files.node spec.diskPath = some (.file (d.content spec.diskPath))
  length : spec.length = (d.content spec.diskPath).length

section
variable {d : Disk} {loc : Location} {spec : FileSpec} {specs : List FileSpec} {name : PyStr}

theorem content_of_file {content : Bytes} (h : d.files.node loc = some (.file content)) :
    d.content loc = content := by
  rw [Disk.content, h]

theorem scanDir_found (h : spec ∈ scanDir d loc) :
    Found d spec ∧ spec.diskPath = loc ++ spec.torrentPath ∧ 0 < spec.length := by
  obtain ⟨child, hchild, hscan⟩ := List.mem_filterMap.mp h
  rw [List.mem_insertionSort, Disk.rglob, List.mem_filter] at hchild
  have hpre : loc <+: child := by
    have hboth := hchild.2
    simp only [decide_eq_true_eq] at hboth
    exact hboth.1
  unfold scanChild at hscan
  split at hscan
  · next content hfile =>
    simp only at hscan
    split at hscan
    · cases hscan
    · split at hscan
      · cases hscan
      · next hsome =>
        obtain rfl := Option.some.inj hscan
        refine ⟨⟨?_, ?_⟩, ?_, ?_⟩
        · rw [content_of_file hfile]
          exact hfile
        · rw [content_of_file hfile]
        · exact (List.prefix_iff_eq_append.mp hpre).symm
        · exact Nat.pos_of_ne_zero hsome
  · cases hscan

theorem scanPath_ok (h : scanPath d loc = .ok (name, specs)) :
    name = baseName loc ∧
      ((∃ content, d.files.node loc = some (.file content) ∧
          specs = [⟨loc, [baseName loc], content.length⟩]) ∨
        (d.files.node loc = some .dir ∧ specs = scanDir d loc ∧ specs ≠ [])) := by
  unfold scanPath at h
  split at h
  · next content hfile =>
    obtain ⟨rfl, rfl⟩ := Prod.mk.inj (Except.ok.inj h)
    exact ⟨rfl, Or.inl ⟨content, hfile, rfl⟩⟩
  · cases h
  · next hdir =>
    simp only at h
    split at h
    · cases h
    · next hne =>
      obtain ⟨rfl, rfl⟩ := Prod.mk.inj (Except.ok.inj h)
      exact ⟨rfl, Or.inr ⟨hdir, rfl, hne⟩⟩

theorem scanPath_found (h : scanPath d loc = .ok (name, specs)) (hm : spec ∈ specs) :
    Found d spec := by
  rcases (scanPath_ok h).2 with ⟨content, hfile, rfl⟩ | ⟨-, rfl, -⟩
  · obtain rfl := List.mem_singleton.mp hm
    constructor
    · rw [content_of_file hfile]
      exact hfile
    · rw [content_of_file hfile]
  · exact (scanDir_found hm).1

end

section
variable {reader : ℕ → Reader} {maxDigits : ℕ} {now : ℤ} {d : Disk} {path : PurePath}
  {opts : Options} {m : TorrentMeta} {specs : List FileSpec} {pieceLength totalSize : ℕ}

theorem createTorrent_ok (h : createTorrent reader maxDigits now d [path] opts = .ok m) :
    ∃ specs pieceLength, scanPath d (d.resolve path) = .ok (baseName (d.resolve path), specs) ∧
      choosePieceLength (specs.map fun spec => spec.length).sum opts.pieceLength =
        .ok pieceLength ∧
      m.info = createdInfo (baseName (d.resolve path)) pieceLength
        (hashPieces Sha1.sha1 pieceLength reader (specs.map fun spec => d.content spec.diskPath))
        specs opts.isPrivate := by
  obtain ⟨⟨name, specs⟩, hscan, h⟩ := bind_ok h
  have hscan : scanPath d (d.resolve path) = .ok (name, specs) := hscan
  obtain ⟨pieceLength, hpiece, h⟩ := bind_ok h
  obtain ⟨raw, hraw, h⟩ := bind_ok h
  obtain ⟨hash, -, h⟩ := bind_ok h
  obtain rfl := (scanPath_ok hscan).1
  refine ⟨specs, pieceLength, hscan, hpiece, ?_⟩
  unfold digestFiles at hraw
  split at hraw
  · cases hraw
  · rw [← Except.ok.inj h, ← Except.ok.inj hraw]

theorem choosePieceLength_pos {choice : Option ℤ}
    (h : choosePieceLength totalSize choice = .ok pieceLength) : 0 < pieceLength := by
  cases choice with
  | none =>
    obtain rfl := Except.ok.inj h
    unfold optimalPieceSize
    split
    · decide
    · exact Nat.lt_of_lt_of_le (by decide) (Nat.le_max_left _ _)
  | some z =>
    simp only [choosePieceLength] at h
    split at h
    · cases h
    · next hmin =>
      split at h
      · cases h
      · obtain rfl := Except.ok.inj h
        simp only [minPieceSize] at hmin
        omega

theorem sum_natCast (specs : List FileSpec) :
    (specs.map fun spec => (spec.length : ℤ)).sum =
      (((specs.map fun spec => spec.length).sum : ℕ) : ℤ) := by
  induction specs with
  | nil => rfl
  | cons spec rest ih =>
    rw [List.map_cons, List.sum_cons, List.map_cons, List.sum_cons, ih, Nat.cast_add]

theorem isSingle_iff : isSingle specs = true ↔ ∃ spec, specs = [spec] ∧ spec.torrentPath.length = 1 := by
  unfold isSingle
  split
  · simp
  · next hne =>
    constructor
    · intro h
      cases h
    · rintro ⟨spec, rfl, -⟩
      exact absurd rfl (hne spec)

theorem totalLength_createdInfo (name : PyStr) (raw : Bytes) (isPrivate : Bool) :
    (createdInfo name pieceLength raw specs isPrivate).totalLength =
      some (((specs.map fun spec => spec.length).sum : ℕ) : ℤ) := by
  by_cases hsingle : isSingle specs = true
  · obtain ⟨spec, rfl, -⟩ := isSingle_iff.mp hsingle
    simp [TorrentInfo.totalLength, createdInfo, hsingle]
  · simp only [TorrentInfo.totalLength, createdInfo, if_neg hsingle, List.map_map]
    rw [← sum_natCast]
    rfl

end

structure Fits (d : Disk) (base : PurePath) (entry : FileEntry) (spec : FileSpec) : Prop where
  plain : dotdot ∉ (join base entry.relativePath).parts
  place : d.files.locate (join base entry.relativePath) = spec.diskPath
  found : Found d spec
  length : entry.length = spec.length

section
variable {d : Disk} {root base : PurePath} {loc : Location} {entries : List FileEntry}
  {specs : List FileSpec} {n : Node}

theorem Fits.file {entry : FileEntry} {spec : FileSpec} (h : Fits d base entry spec) :
    d.files.node (d.files.locate (join base entry.relativePath)) =
      some (.file (d.content spec.diskPath)) := by
  rw [h.place]
  exact h.found.file

theorem prepareLoop_fits (h : List.Forall₂ (Fits d base) entries specs) (start : ℤ)
    (before : List FileSlice) :
    DiskStorage.prepareLoop base entries start before d.files =
      (.ok (), before ++ entrySlices base entries start, d.files) := by
  induction h generalizing start before with
  | nil => simp [DiskStorage.prepareLoop, entrySlices]
  | @cons entry spec rest more hfit _ ih =>
    rw [DiskStorage.prepareLoop]
    simp only [ensure_exists hfit.plain hfit.file]
    rw [ih, entrySlices, List.append_assoc, List.singleton_append]

theorem laid_fits (h : List.Forall₂ (Fits d base) entries specs) (start : ℕ) :
    Laid d.files start (entrySlices base entries start)
      (specs.map fun spec => d.content spec.diskPath) := by
  induction h generalizing start with
  | nil => exact .nil
  | @cons entry spec rest more hfit _ ih =>
    have hlen : entry.length = ((d.content spec.diskPath).length : ℤ) := by
      rw [hfit.length, hfit.found.length]
    rw [entrySlices, hlen, List.map_cons, ← Nat.cast_add]
    exact .cons (hasNull_of_exists hfit.plain hfit.file) hfit.file (ih _)

theorem length_contents (h : ∀ spec ∈ specs, Found d spec) :
    (specs.map fun spec => d.content spec.diskPath).flatten.length =
      (specs.map fun spec => spec.length).sum := by
  rw [List.length_flatten, List.map_map]
  refine congrArg List.sum (List.map_congr_left fun spec hm => ?_)
  exact (h spec hm).length.symm

/-- A regular file is laid out at its own place. -/
theorem fits_file (hroot : Rooted d root loc) {content : Bytes}
    (hfile : d.files.node loc = some (.file content)) :
    List.Forall₂ (Fits d (join root (parse (baseName loc)))) [⟨[], content.length⟩]
      [⟨loc, [baseName loc], content.length⟩] := by
  obtain ⟨hplain, hplace⟩ := locate_below hroot hfile List.not_mem_nil
  rw [List.append_nil] at hplace
  have hcontent := content_of_file hfile
  refine .cons ⟨hplain, hplace, ⟨?_, ?_⟩, rfl⟩ .nil
  · rw [hcontent]
    exact hfile
  · rw [hcontent]

/-- The files under a directory are laid out at their own places. -/
theorem fits_dir (hroot : Rooted d root loc) (hdir : d.files.node loc = some .dir)
    (h : ∀ spec ∈ specs, spec ∈ scanDir d loc) :
    List.Forall₂ (Fits d (join root (parse (baseName loc))))
      (specs.map fun spec => ⟨spec.torrentPath, spec.length⟩) specs := by
  rw [List.forall₂_map_left_iff]
  apply List.forall₂_same.mpr
  intro spec hm
  obtain ⟨hfound, hpath, -⟩ := scanDir_found (h spec hm)
  have hnames : ∀ part ∈ spec.torrentPath, IsName part := by
    intro part hpart
    refine d.names _ _ hfound.file part ?_
    rw [hpath]
    exact List.mem_append_right _ hpart
  have hrel : FileEntry.relativePath ⟨spec.torrentPath, spec.length⟩ =
      ⟨.relative, spec.torrentPath⟩ :=
    ofSegments_parts fun part hpart =>
      ⟨(hnames part hpart).no_slash, (hnames part hpart).ne_nil, (hnames part hpart).ne_dot⟩
  have hrel' : dotdot ∉ spec.torrentPath := fun hm => (hnames _ hm).ne_dotdot rfl
  obtain ⟨hplain, hplace⟩ := locate_below hroot hdir hrel'
  constructor
  · rw [hrel]
    exact hplain
  · rw [hrel, hplace, hpath]
  · exact hfound
  · rfl

end

section
variable {reader : ℕ → Reader} {d : Disk} {root : PurePath} {loc : Location}
  {specs : List FileSpec} {pieceLength : ℕ} {isPrivate : Bool}

theorem init_created (hpos : 0 < pieceLength) (total : ℤ) (raw : Bytes) :
    ∃ tr, PieceTracker.init pieceLength total raw = some tr := by
  have hne : (pieceLength : ℤ) ≠ 0 := by omega
  rw [PieceTracker.init, if_neg hne]
  exact ⟨_, rfl⟩

/-- The entries of a new torrent fit its specs, unless a directory has a lone file. -/
theorem fits_created (hroot : Rooted d root loc) (hscan : scanPath d loc = .ok (baseName loc, specs))
    (hlone : ¬ LoneFile d loc) (raw : Bytes) :
    List.Forall₂ (Fits d (join root (parse (baseName loc))))
      (layoutEntries (createdInfo (baseName loc) pieceLength raw specs isPrivate).files
        ((specs.map fun spec => spec.length).sum : ℕ)) specs := by
  rcases (scanPath_ok hscan).2 with ⟨content, hfile, rfl⟩ | ⟨hdir, hspecs, -⟩
  · exact fits_file hroot hfile
  · have hsingle : ¬ isSingle specs = true := by
      intro hsingle
      obtain ⟨spec, heq, hone⟩ := isSingle_iff.mp hsingle
      exact hlone ⟨hdir, spec, hspecs.symm.trans heq, hone⟩
    simp only [createdInfo, if_neg hsingle, layoutEntries, Option.getD_some]
    apply fits_dir hroot hdir
    intro spec hm
    rw [← hspecs]
    exact hm

/-- Where the entries fit, the storage reads every piece of the stream that was hashed. -/
theorem valid_of_fits {name : PyStr} {entries : List FileEntry} {total : ℤ} {tr : Tracker}
    {spec : PieceSpec} (hpos : 0 < pieceLength)
    (hfits : List.Forall₂ (Fits d (join root (parse name))) entries specs)
    (hfound : ∀ spec ∈ specs, Found d spec)
    (hinit : PieceTracker.init pieceLength ((specs.map fun spec => spec.length).sum : ℕ)
      (hashPieces Sha1.sha1 pieceLength reader (specs.map fun spec => d.content spec.diskPath)) =
        some tr) (hspec : spec ∈ tr.specs) :
    Valid Sha1.sha1 ((⟨root, entrySlices (join root (parse name)) entries 0, total, pieceLength⟩ :
      DiskStorage).read d.files) spec := by
  rw [← length_contents hfound] at hinit
  obtain ⟨offset, length, hoffset, hlength, -, hend, hhash⟩ :=
    piece_of_hashPieces Sha1.length_sha1 hpos hinit hspec
  have hlaid : Laid d.files 0 (entrySlices (join root (parse name)) entries 0)
      (specs.map fun spec => d.content spec.diskPath) := laid_fits hfits 0
  refine ⟨_, ?_, ?_, hhash.symm⟩
  · rw [hoffset, hlength]
    exact read_laid hlaid hend
  · rw [hlength, flatRead, List.length_take, List.length_drop]
    omega

theorem read_directory {base : PurePath} {total offset length : ℕ} {pieceLength : ℤ}
    (hdir : d.files.node (d.files.locate base) = some .dir) (hnull : hasNull base = false)
    (hpos : 0 < length) (hend : offset + length ≤ total) :
    (⟨root, [⟨base, 0, 0, total⟩], total, pieceLength⟩ : DiskStorage).read d.files offset length =
      .error .isDirectory := by
  have hover : DiskStorage.overlaps offset ((offset : ℤ) + (length : ℤ)) ⟨base, 0, 0, total⟩ = true := by
    simp only [DiskStorage.overlaps, decide_eq_true_eq]
    omega
  have hread : ∀ z k : ℤ, syncRead d.files base z k = .error .isDirectory := by
    intro z k
    rw [syncRead, hnull, hdir]
    rfl
  rw [DiskStorage.read, DiskStorage.slicesFor, List.filter_cons_of_pos hover, DiskStorage.readLoop,
    hread]
  rfl

theorem prepareLoop_lone (hroot : Rooted d root loc) (hdir : d.files.node loc = some .dir)
    (total : ℤ) :
    DiskStorage.prepareLoop (join root (parse (baseName loc))) [⟨[], total⟩] 0 [] d.files =
      (.ok (), entrySlices (join root (parse (baseName loc))) [⟨[], total⟩] 0, d.files) := by
  obtain ⟨hplain, hplace⟩ := locate_below hroot hdir List.not_mem_nil
  rw [List.append_nil] at hplace
  have hnode : d.files.node (d.files.locate (join (join root (parse (baseName loc)))
      (FileEntry.relativePath ⟨[], total⟩))) = some .dir := by
    refine Eq.trans (congrArg d.files.node ?_) hdir
    exact hplace
  have hbase : dotdot ∉ (join (join root (parse (baseName loc)))
      (FileEntry.relativePath ⟨[], total⟩)).parts := hplain
  rw [DiskStorage.prepareLoop]
  simp only [ensure_exists hbase hnode]
  rfl

/-- The lone file of a directory makes it a single-file torrent with some content. -/
theorem single_of_lone (hscan : scanPath d loc = .ok (baseName loc, specs)) (hlone : LoneFile d loc) :
    d.files.node loc = some .dir ∧ isSingle specs = true ∧
      0 < (specs.map fun spec => spec.length).sum := by
  obtain ⟨hdir, spec, hspec, hone⟩ := hlone
  have hspecs : specs = [spec] := by
    rcases (scanPath_ok hscan).2 with ⟨content, hfile, -⟩ | ⟨-, hspecs, -⟩
    · cases hdir.symm.trans hfile
    · exact hspecs.trans hspec
  have hmem : spec ∈ scanDir d loc := by
    rw [hspec]
    exact List.mem_singleton_self _
  refine ⟨hdir, isSingle_iff.mpr ⟨spec, hspecs, hone⟩, ?_⟩
  rw [hspecs]
  exact (scanDir_found hmem).2.2

/-- Preparing a new torrent where its source is always goes through and changes nothing. -/
theorem prepare_created (isPrivate : Bool) (hroot : Rooted d root loc)
    (hscan : scanPath d loc = .ok (baseName loc, specs)) (hpos : 0 < pieceLength) (raw : Bytes) :
    ∃ tr, PieceTracker.init pieceLength ((specs.map fun spec => spec.length).sum : ℕ) raw = some tr ∧
      prepare d root (createdInfo (baseName loc) pieceLength raw specs isPrivate) =
        some ⟨tr, ⟨root, entrySlices (join root (parse (baseName loc)))
          (layoutEntries (createdInfo (baseName loc) pieceLength raw specs isPrivate).files
            ((specs.map fun spec => spec.length).sum : ℕ)) 0,
          ((specs.map fun spec => spec.length).sum : ℕ), pieceLength⟩, d.files⟩ := by
  obtain ⟨tr, hinit⟩ := init_created hpos ((specs.map fun spec => spec.length).sum : ℕ) raw
  have hloop : DiskStorage.prepareLoop (join root (parse (baseName loc)))
      (layoutEntries (createdInfo (baseName loc) pieceLength raw specs isPrivate).files
        ((specs.map fun spec => spec.length).sum : ℕ)) 0 [] d.files =
      (.ok (), entrySlices (join root (parse (baseName loc)))
        (layoutEntries (createdInfo (baseName loc) pieceLength raw specs isPrivate).files
          ((specs.map fun spec => spec.length).sum : ℕ)) 0, d.files) := by
    by_cases hlone : LoneFile d loc
    · obtain ⟨hdir, hsingle, -⟩ := single_of_lone hscan hlone
      simp only [createdInfo, if_pos hsingle, layoutEntries, Option.getD_none]
      exact prepareLoop_lone hroot hdir _
    · exact prepareLoop_fits (fits_created hroot hscan hlone raw) 0 []
  refine ⟨tr, hinit, ?_⟩
  have hpieceLength : (createdInfo (baseName loc) pieceLength raw specs isPrivate).pieceLength =
      pieceLength := rfl
  have hraw : (createdInfo (baseName loc) pieceLength raw specs isPrivate).piecesRaw = raw := rfl
  have hname : (createdInfo (baseName loc) pieceLength raw specs isPrivate).name = baseName loc := rfl
  unfold prepare
  rw [totalLength_createdInfo]
  simp only [hpieceLength, hraw, hname, hinit, prepareFiles_eq]
  simp only [storageAt, DiskStorage.opened, hloop]

/-- The pieces of a new torrent are valid where its source is, or none of them can be read. -/
theorem created_pieces (reader : ℕ → Reader) (isPrivate : Bool) (hroot : Rooted d root loc)
    (hscan : scanPath d loc = .ok (baseName loc, specs)) (hpos : 0 < pieceLength) :
    ∃ p, prepare d root (createdInfo (baseName loc) pieceLength
        (hashPieces Sha1.sha1 pieceLength reader (specs.map fun spec => d.content spec.diskPath))
        specs isPrivate) = some p ∧
      p.tracker.specs.length = p.tracker.pieceCount.toNat ∧ 0 ≤ p.tracker.pieceCount ∧
      p.tracker.got = ∅ ∧
      (¬ LoneFile d loc → ∀ spec ∈ p.tracker.specs,
        Valid Sha1.sha1 (p.storage.read p.files) spec) ∧
      (LoneFile d loc → ∃ spec ∈ p.tracker.specs,
        p.storage.read p.files spec.offset spec.length = .error .isDirectory) := by
  obtain ⟨tr, hinit, hprepare⟩ := prepare_created isPrivate hroot hscan hpos
    (hashPieces Sha1.sha1 pieceLength reader (specs.map fun spec => d.content spec.diskPath))
  have hfound : ∀ spec ∈ specs, Found d spec := fun spec hm => scanPath_found hscan hm
  obtain ⟨hc0, hc1, -⟩ := pieceCount_bounds (by omega) (by omega) hinit
  refine ⟨_, hprepare, specs_length hinit, hc0, (specs_eq_of_init hinit).2.2.2.1, ?_, ?_⟩
  · intro hlone spec hspec
    exact valid_of_fits hpos (fits_created hroot hscan hlone _) hfound hinit hspec
  · intro hlone
    obtain ⟨hdir, hsingle, hsize⟩ := single_of_lone hscan hlone
    have hsome : 0 < tr.specs.length := by
      rw [specs_length hinit]
      by_contra hzero
      have hnone : tr.pieceCount = 0 := by omega
      rw [hnone, zero_mul] at hc1
      omega
    obtain ⟨hplain, hplace⟩ := locate_below hroot hdir List.not_mem_nil
    rw [List.append_nil] at hplace
    have hnode : d.files.node (d.files.locate (join (join root (parse (baseName loc)))
        ⟨.relative, []⟩)) = some .dir := by
      rw [hplace]
      exact hdir
    refine ⟨tr.specs[0], List.getElem_mem hsome, ?_⟩
    have hinit' := hinit
    rw [← length_contents hfound] at hinit'
    obtain ⟨offset, length, hoffset, hlength, hlen, hend, -⟩ :=
      piece_of_hashPieces Sha1.length_sha1 hpos hinit' (List.getElem_mem hsome)
    rw [length_contents hfound] at hend
    simp only [createdInfo, if_pos hsingle, layoutEntries, Option.getD_none, hoffset, hlength]
    exact read_directory hnode (hasNull_of_exists hplain hnode) hlen hend

end

/-- A path that a torrent can be made of: it is a regular file, or a directory with a file that is
neither hidden nor empty; the piece length, if one is given, is admissible and fits an index; the
names have a UTF-8 form, and the sizes are those of files. -/
structure Creatable (d : Disk) (loc : Location) (choice : Option ℤ) : Prop where
  source : (∃ content, d.files.node loc = some (.file content)) ∨
    (d.files.node loc = some .dir ∧ scanDir d loc ≠ [])
  choice : ∀ z ∈ choice, ∃ k, 14 ≤ k ∧ k < 63 ∧ z = 2 ^ k
  names : ∀ name specs, scanPath d loc = .ok (name, specs) →
    Storable name ∧ ∀ spec ∈ specs, ∀ part ∈ spec.torrentPath, Storable part
  size : ∀ name specs, scanPath d loc = .ok (name, specs) →
    (specs.map fun spec => spec.length).sum < 2 ^ 63

section
variable {reader : ℕ → Reader} {maxDigits : ℕ} {now : ℤ} {d : Disk} {path root : PurePath}
  {loc : Location} {opts : Options} {m : TorrentMeta} {specs : List FileSpec}
  {pieceLength totalSize : ℕ}

theorem scanPath_source (h : (∃ content, d.files.node loc = some (.file content)) ∨
    (d.files.node loc = some .dir ∧ scanDir d loc ≠ [])) :
    ∃ specs, scanPath d loc = .ok (baseName loc, specs) := by
  rcases h with ⟨content, hfile⟩ | ⟨hdir, hsome⟩
  · refine ⟨[⟨loc, [baseName loc], content.length⟩], ?_⟩
    rw [scanPath, hfile]
  · refine ⟨scanDir d loc, ?_⟩
    rw [scanPath, hdir]
    exact if_neg hsome

theorem choosePieceLength_admissible {choice : Option ℤ}
    (h : ∀ z ∈ choice, ∃ k, 14 ≤ k ∧ k < 63 ∧ z = 2 ^ k) (totalSize : ℕ) :
    ∃ pieceLength, choosePieceLength totalSize choice = .ok pieceLength ∧
      16384 ≤ pieceLength ∧ pieceLength < 2 ^ 63 := by
  cases choice with
  | none =>
    refine ⟨_, rfl, ?_, ?_⟩
    · unfold optimalPieceSize
      split
      · decide
      · exact Nat.le_max_left _ _
    · unfold optimalPieceSize
      split
      · decide
      · refine Nat.max_lt.mpr ⟨by decide, (Nat.min_le_right _ _).trans_lt ?_⟩
        decide
  | some z =>
    obtain ⟨k, hmin, hmax, rfl⟩ := h z rfl
    have hpow : ((2 : ℤ) ^ k).toNat = 2 ^ k := by
      rw [← Nat.cast_ofNat, ← Nat.cast_pow, Int.toNat_natCast]
    have hlow : 2 ^ 14 ≤ 2 ^ k := Nat.pow_le_pow_right (by decide) hmin
    have hmask : 2 ^ k &&& (2 ^ k - 1) = 0 := by
      rw [Nat.and_two_pow_sub_one_eq_mod, Nat.mod_self]
    have hnot : ¬ (2 : ℤ) ^ k < (minPieceSize : ℤ) := by
      have hcast : ((2 ^ 14 : ℕ) : ℤ) ≤ ((2 ^ k : ℕ) : ℤ) := Nat.cast_le.mpr hlow
      push_cast at hcast
      simp only [minPieceSize]
      omega
    refine ⟨2 ^ k, ?_, hlow, Nat.pow_lt_pow_right (by decide) hmax⟩
    rw [choosePieceLength, if_neg hnot, hpow, if_neg (not_not.mpr hmask)]

theorem infoInts_created {name : PyStr} {raw : Bytes} {isPrivate : Bool}
    (hsize : (specs.map fun spec => spec.length).sum < 2 ^ 63) (hpiece : pieceLength < 2 ^ 63) :
    ∀ z ∈ infoInts (createdInfo name pieceLength raw specs isPrivate), ∃ n : ℕ, n < 2 ^ 63 ∧ z = n := by
  have hone : ∀ spec ∈ specs, spec.length < 2 ^ 63 := fun spec hm =>
    (List.le_sum_of_mem (List.mem_map_of_mem hm)).trans_lt hsize
  intro z hz
  simp only [infoInts, List.mem_cons, List.mem_append] at hz
  rcases hz with rfl | hz | hz | hz
  · exact ⟨pieceLength, hpiece, rfl⟩
  · simp only [createdInfo] at hz
    split at hz
    · obtain ⟨spec, hm, rfl⟩ := List.mem_map.mp (List.mem_of_mem_head? (Option.mem_toList.mp hz))
      exact ⟨spec.length, hone spec hm, rfl⟩
    · cases hz
  · simp only [createdInfo] at hz
    split at hz
    · cases hz
    · rw [Option.getD_some, List.map_map] at hz
      obtain ⟨spec, hm, rfl⟩ := List.mem_map.mp hz
      exact ⟨spec.length, hone spec hm, rfl⟩
  · split at hz
    · exact ⟨1, by decide, List.mem_singleton.mp hz⟩
    · cases hz

theorem infoHash_created (hlim : maxDigits = 0 ∨ 640 ≤ maxDigits) {name : PyStr} {raw : Bytes}
    (isPrivate : Bool)
    (hnames : Storable name ∧ ∀ spec ∈ specs, ∀ part ∈ spec.torrentPath, Storable part)
    (hsize : (specs.map fun spec => spec.length).sum < 2 ^ 63) (hpiece : pieceLength < 2 ^ 63)
    (hraw : raw.length < 2 ^ 63) :
    ∃ hash, infoHash maxDigits (createdInfo name pieceLength raw specs isPrivate) = .ok hash := by
  have hstrings : ∀ s ∈ infoStrings (createdInfo name pieceLength raw specs isPrivate),
      Storable s := by
    intro s hs
    rcases List.mem_cons.mp hs with rfl | hs
    · exact hnames.1
    · obtain ⟨entry, hentry, hpart⟩ := List.mem_flatMap.mp hs
      simp only [createdInfo] at hentry
      split at hentry
      · cases hentry
      · obtain ⟨spec, hm, rfl⟩ := List.mem_map.mp hentry
        exact hnames.2 spec hm s hpart
  have hints : ∀ z ∈ infoInts (createdInfo name pieceLength raw specs isPrivate),
      PyDecimal.WithinLimit maxDigits (PyDecimal.digitCount z) := by
    intro z hz
    obtain ⟨n, hn, rfl⟩ := infoInts_created hsize hpiece z hz
    exact BencodeRoundTrip.withinLimit_length hlim hn
  have hcontent : (createdInfo name pieceLength raw specs isPrivate).length ≠ none ∨
      (createdInfo name pieceLength raw specs isPrivate).files ≠ none := by
    by_cases hsingle : isSingle specs = true
    · obtain ⟨spec, rfl, -⟩ := isSingle_iff.mp hsingle
      exact Or.inl (by simp [createdInfo, hsingle])
    · exact Or.inr (by simp [createdInfo, hsingle])
  obtain ⟨dict, hdict, hflat, -⟩ := infoToBencode_storable hstrings hints hraw hcontent
  obtain ⟨data, hdata, -⟩ :=
    BencodeRoundTrip.encode_in_context hlim _ hflat.encodable hflat.nesting
  refine ⟨Sha1.sha1 data, ?_⟩
  unfold infoHash
  rw [hdict]
  simp only [bind, Except.bind, hdata]

theorem createTorrent_creatable (h : Creatable d (d.resolve path) opts.pieceLength)
    (hlim : maxDigits = 0 ∨ 640 ≤ maxDigits) :
    ∃ m, createTorrent reader maxDigits now d [path] opts = .ok m := by
  obtain ⟨specs, hscan⟩ := scanPath_source h.source
  obtain ⟨pieceLength, hpiece, hmin, hmax⟩ := choosePieceLength_admissible h.choice
    (specs.map fun spec => spec.length).sum
  have hsize := h.size _ _ hscan
  have hfound : ∀ spec ∈ specs, Found d spec := fun spec hm => scanPath_found hscan hm
  have hlength := length_contents hfound
  have hraw : (hashPieces Sha1.sha1 pieceLength reader
      (specs.map fun spec => d.content spec.diskPath)).length < 2 ^ 63 := by
    rw [length_hashPieces Sha1.length_sha1 (by omega), pieceTotal, hlength]
    have hdiv : (specs.map fun spec => spec.length).sum / pieceLength ≤ 2 ^ 63 / 16384 :=
      Nat.div_le_div hsize.le hmin (by decide)
    split
    · omega
    · omega
  obtain ⟨hash, hhash⟩ :=
    infoHash_created hlim opts.isPrivate (h.names _ _ hscan) hsize hmax hraw
  have hpaths : scanPaths d [path] = .ok (baseName (d.resolve path), specs) := hscan
  have hdigest : digestFiles reader d specs pieceLength =
      .ok (hashPieces Sha1.sha1 pieceLength reader (specs.map fun spec => d.content spec.diskPath)) :=
    if_neg fun hover => absurd hover.2 (by omega)
  simp only [createTorrent, bind, Except.bind, hpaths, hpiece, hdigest, hhash, Except.mapError,
    Except.ok.injEq, exists_eq']

/-- A created torrent verifies where its source is, unless that is a directory with a lone file. -/
theorem verifies_of_created (hroot : Rooted d root (d.resolve path))
    (h : createTorrent reader maxDigits now d [path] opts = .ok m) :
    ∃ p, prepare d root m.info = some p ∧
      (p.Verifies ↔ ¬ LoneFile d (d.resolve path)) ∧
      ((checkResume Sha1.sha1 (p.storage.read p.files) ∅ p.tracker).isComplete ↔
        ¬ LoneFile d (d.resolve path)) := by
  obtain ⟨specs, pieceLength, hscan, hpiece, hinfo⟩ := createTorrent_ok h
  obtain ⟨p, hprepare, hlen, hcount, hgot, hgood, hbad⟩ := 
    created_pieces reader opts.isPrivate hroot hscan (choosePieceLength_pos hpiece)
  rw [← hinfo] at hprepare
  refine ⟨p, hprepare, ?_, ?_⟩
  · constructor
    · intro hverifies hlone
      obtain ⟨spec, hm, herror⟩ := hbad hlone
      obtain ⟨data, hdata, -⟩ := hverifies spec hm
      cases herror.symm.trans hdata
    · intro hlone spec hm
      obtain ⟨data, hdata, -, hhash⟩ := hgood hlone spec hm
      exact ⟨data, hdata, hhash⟩
  · rw [checkResume_complete_iff Sha1.sha1 _ hlen hcount hgot]
    constructor
    · intro hall hlone
      obtain ⟨spec, hm, herror⟩ := hbad hlone
      obtain ⟨data, hdata, -⟩ := hall spec hm
      cases herror.symm.trans hdata
    · exact hgood

end

/-- A torrent that is made of a single path verifies in the directory of that path, and starting it
there completes it, exactly if the path is not a directory whose only file, of those that are
neither hidden nor empty, lies directly inside it. Such a torrent can always be made. -/
theorem created_torrent_verifies_iff (reader : ℕ → Reader) (maxDigits : ℕ) (now : ℤ) (d : Disk)
    (path root : PurePath) (opts : Options) (hroot : Rooted d root (d.resolve path)) :
    (∀ m, createTorrent reader maxDigits now d [path] opts = .ok m →
      ∃ p, prepare d root m.info = some p ∧
        (p.Verifies ↔ ¬ LoneFile d (d.resolve path)) ∧
        ((checkResume Sha1.sha1 (p.storage.read p.files) ∅ p.tracker).isComplete ↔
          ¬ LoneFile d (d.resolve path))) ∧
    (Creatable d (d.resolve path) opts.pieceLength → (maxDigits = 0 ∨ 640 ≤ maxDigits) →
      ∃ m, createTorrent reader maxDigits now d [path] opts = .ok m) := by
  constructor
  · intro m h
    exact verifies_of_created hroot h
  · intro h hlim
    exact createTorrent_creatable h hlim

def oneFileNode (loc : Location) : Option Node :=
  if loc = [] ∨ loc = [[100]] then some .dir
  else if loc = [[100], [102]] then some (.file [7]) else none

def oneFile : Disk where
  files := ⟨[], oneFileNode⟩
  resolve p := Files.locate ⟨[], oneFileNode⟩ p
  entries := [[[100]], [[100], [102]]]
  parent_dir loc n h hne := by
    simp only [oneFileNode] at h
    split_ifs at h with h1 h2
    · rcases h1 with rfl | rfl
      · exact absurd rfl hne
      · rfl
    · rw [h2]
      rfl
  names loc n h part hpart := by
    have hletter : part = [100] ∨ part = [102] := by
      simp only [oneFileNode] at h
      split_ifs at h with h1 h2
      · rcases h1 with rfl | rfl
        · cases hpart
        · exact Or.inl (List.mem_singleton.mp hpart)
      · rw [h2] at hpart
        simpa using hpart
    rcases hletter with rfl | rfl
    · exact ⟨by decide, by decide, by decide, by decide, by decide⟩
    · exact ⟨by decide, by decide, by decide, by decide, by decide⟩
  cwd_dir := rfl

def plainOptions : Options := ⟨none, some 16384, none, false, []⟩

theorem creatable_oneFile {loc : Location} {name : PyStr} {spec : FileSpec}
    (hscan : scanPath oneFile loc = .ok (name, [spec])) (hname : Storable name)
    (hpath : ∀ part ∈ spec.torrentPath, Storable part) (hlength : spec.length < 2 ^ 63)
    (hsource : (∃ content, oneFile.files.node loc = some (.file content)) ∨
      (oneFile.files.node loc = some .dir ∧ scanDir oneFile loc ≠ [])) :
    Creatable oneFile loc plainOptions.pieceLength where
  source := hsource
  choice z hz := ⟨14, le_rfl, by decide, (Option.some.inj hz).symm⟩
  names name' specs h := by
    obtain ⟨rfl, rfl⟩ := Prod.mk.inj (Except.ok.inj (hscan.symm.trans h))
    refine ⟨hname, fun spec' hm => ?_⟩
    rw [List.mem_singleton.mp hm]
    exact hpath
  size name' specs h := by
    obtain ⟨-, rfl⟩ := Prod.mk.inj (Except.ok.inj (hscan.symm.trans h))
    simpa using hlength

/-- The directory `d` becomes a single-file torrent of its own name; where the file should be the
directory is, and not a piece can be read. -/
theorem lone_file_unverified :
    ∃ m p, createTorrent (fun _ => fullReads) 4300 0 oneFile [⟨.slash, [[100]]⟩] plainOptions =
        .ok m ∧
      oneFile.files.node [[100]] = some .dir ∧ Rooted oneFile ⟨.slash, []⟩ [[100]] ∧
      prepare oneFile ⟨.slash, []⟩ m.info = some p ∧ ¬ p.Verifies ∧
      ¬ (checkResume Sha1.sha1 (p.storage.read p.files) ∅ p.tracker).isComplete := by
  have hroot : Rooted oneFile ⟨.slash, []⟩ [[100]] := ⟨by decide, rfl⟩
  have hscan : scanPath oneFile [[100]] = .ok ([100], [⟨[[100], [102]], [[102]], 1⟩]) := by decide
  have hspecs : scanDir oneFile [[100]] = [⟨[[100], [102]], [[102]], 1⟩] := by decide
  have hlone : LoneFile oneFile [[100]] := ⟨rfl, _, hspecs, rfl⟩
  have hcreatable := creatable_oneFile hscan (storable_ascii (by decide))
    (List.forall_mem_singleton.mpr (storable_ascii (by decide))) (by decide)
    (Or.inr ⟨rfl, by rw [hspecs]; exact List.cons_ne_nil _ _⟩)
  obtain ⟨m, hm⟩ : ∃ m, createTorrent (fun _ => fullReads) 4300 0 oneFile [⟨.slash, [[100]]⟩]
      plainOptions = .ok m := createTorrent_creatable hcreatable (Or.inr (by decide))
  obtain ⟨p, hp, hverifies, hcomplete⟩ := verifies_of_created hroot hm
  exact ⟨m, p, hm, rfl, hroot, hp, fun h => hverifies.mp h hlone, fun h => hcomplete.mp h hlone⟩

theorem created_torrent_verifies_file :
    ∃ m p, createTorrent (fun _ => fullReads) 4300 0 oneFile [⟨.slash, [[100], [102]]⟩]
        plainOptions = .ok m ∧
      prepare oneFile ⟨.slash, [[100]]⟩ m.info = some p ∧ p.Verifies ∧
      (checkResume Sha1.sha1 (p.storage.read p.files) ∅ p.tracker).isComplete := by
  have hroot : Rooted oneFile ⟨.slash, [[100]]⟩ [[100], [102]] := ⟨by decide, rfl⟩
  have hscan : scanPath oneFile [[100], [102]] =
      .ok ([102], [⟨[[100], [102]], [[102]], 1⟩]) := by decide
  have hcreatable := creatable_oneFile hscan (storable_ascii (by decide))
    (List.forall_mem_singleton.mpr (storable_ascii (by decide))) (by decide) (Or.inl ⟨[7], rfl⟩)
  have hlone : ¬ LoneFile oneFile [[100], [102]] := by
    rintro ⟨hdir, -⟩
    cases hdir
  obtain ⟨hall, hsome⟩ := created_torrent_verifies_iff (fun _ => fullReads) 4300 0 oneFile
    ⟨.slash, [[100], [102]]⟩ ⟨.slash, [[100]]⟩ plainOptions hroot
  obtain ⟨m, hm⟩ := hsome hcreatable (Or.inr (by decide))
  obtain ⟨p, hp, hverifies, hcomplete⟩ := hall m hm
  exact ⟨m, p, hm, hp, hverifies.mpr hlone, hcomplete.mpr hlone⟩

end CreatedTorrents
