import Aiobt.SliceLoops
import Aiobt.FlatStore

/-! # The storage backends refine a flat array -/
namespace StorageRefinement

open ByteStrings PosixPaths FileSystem SurrogateUtf8 TorrentMetadata TorrentStorage FlatStore SliceLoops

/-- From `base` on, the slices are next to each other and their files hold these contents. -/
inductive Laid (fs : Files) : ℕ → List FileSlice → List Bytes → Prop
  | nil {base} : Laid fs base [] []
  | cons {base path content slices contents} : hasNull path = false →
      fs.node (fs.locate path) = some (.file content) →
      Laid fs (base + content.length) slices contents →
      Laid fs base (⟨path, 0, base, content.length⟩ :: slices) (content :: contents)

variable {fs : Files} {base : ℕ} {slices : List FileSlice} {contents : List Bytes}

theorem Laid.adjacent (h : Laid fs base slices contents) : Adjacent base slices := by
  induction h with
  | nil => exact .nil
  | cons hnull hfile hrest ih => exact .cons ih

theorem Laid.congr {fs' : Files} (h : Laid fs base slices contents) (hcwd : fs'.cwd = fs.cwd)
    (hnode : ∀ loc ∈ locations fs slices, fs'.node loc = fs.node loc) :
    Laid fs' base slices contents := by
  induction h with
  | nil => exact .nil
  | @cons base path content slices contents hnull hfile hrest ih =>
    have hloc : fs'.locate path = fs.locate path := by rw [Files.locate, Files.locate, hcwd]
    refine .cons hnull ?_ (ih fun loc hm => hnode loc (List.mem_cons_of_mem _ hm))
    rw [hloc, hnode _ (List.mem_cons_self ..), hfile]

/-- A slice whose file has the right length goes in front. -/
theorem Laid.push {path : PurePath} {length : ℕ} {content : Bytes} (hnull : hasNull path = false)
    (hfile : fs.node (fs.locate path) = some (.file content)) (hlen : content.length = length)
    (h : Laid fs (base + length) slices contents) :
    Laid fs base (⟨path, 0, base, length⟩ :: slices) (content :: contents) := by
  subst hlen
  exact .cons hnull hfile h

/-- Writing the file of one slice leaves the others as they were. -/
theorem Laid.put {loc : Location} (h : Laid fs base slices contents)
    (hloc : loc ∉ locations fs slices) (n : Node) : Laid (fs.put loc n) base slices contents := by
  refine h.congr rfl fun loc' hm => put_node_of_ne ?_
  rintro rfl
  exact hloc hm

theorem syncRead_inside {path : PurePath} {content : Bytes} (hnull : hasNull path = false)
    (hfile : fs.node (fs.locate path) = some (.file content)) {offset length : ℕ}
    (h : offset + length ≤ content.length) :
    syncRead fs path offset length = .ok (flatRead content offset length) := by
  have hlen : ((content.drop offset).take length).length = length := by
    rw [List.length_take, List.length_drop]
    omega
  rw [syncRead, hnull, hfile]
  simp only [Bool.false_eq_true, if_false, bind, Except.bind, readAt_inside]
  rw [if_neg (by omega), flatRead]

theorem writeAt_eq_flatWrite {content data : Bytes} {offset : ℕ}
    (h : offset + data.length ≤ content.length) :
    writeAt content offset data = flatWrite content offset data := by
  rw [writeAt_inside h, flatWrite]

theorem readLoop_laid (h : Laid fs base slices contents) {offset stop : ℕ}
    (hcur : max offset base ≤ stop) (hstop : stop ≤ base + contents.flatten.length) :
    DiskStorage.readLoop fs (slices.filter (DiskStorage.overlaps offset stop)) (max offset base : ℕ)
        (stop - max offset base : ℕ) =
      .ok (flatRead contents.flatten (max offset base - base) (stop - max offset base)) := by
  induction h with
  | @nil base =>
    simp only [List.flatten_nil, List.length_nil] at hstop
    have hzero : stop - max offset base = 0 := by omega
    rw [hzero]
    simp [DiskStorage.readLoop, flatRead]
  | @cons base path content slices contents hnull hfile hrest ih =>
    rw [List.flatten_cons, List.length_append] at hstop
    rw [List.flatten_cons]
    by_cases hbefore : base + content.length ≤ offset
    · have hmax : max offset (base + content.length) = max offset base := by omega
      have hrec := ih (by omega) (by omega)
      rw [hmax, Nat.sub_add_eq] at hrec
      rw [filter_before hbefore, hrec, flatRead_append_right (by omega)]
    · by_cases hafter : stop ≤ base
      · have hzero : stop - max offset base = 0 := by omega
        rw [(Laid.cons hnull hfile hrest).adjacent.filter_after hafter, hzero]
        simp [DiskStorage.readLoop, flatRead]
      · rw [filter_inside (by omega) (by omega), readLoop_cons (by omega) (by omega) (by omega),
          syncRead_inside hnull hfile (by omega)]
        simp only [Except.bind]
        by_cases hlast : stop ≤ base + content.length
        · rw [if_pos hlast, Nat.min_eq_left hlast, flatRead_append_left (by omega)]
        · have hmax : max offset (base + content.length) = base + content.length := by omega
          have hrec := ih (by omega) (by omega)
          rw [hmax, Nat.sub_self] at hrec
          have hchunk : min stop (base + content.length) - max offset base =
              content.length - (max offset base - base) := by omega
          have hsplit : stop - max offset base = content.length - (max offset base - base) +
              (stop - (base + content.length)) := by omega
          rw [if_neg hlast, hrec, hchunk, hsplit, flatRead_append (by omega)]

theorem read_laid {st : DiskStorage} (h : Laid fs 0 st.slices contents) {offset length : ℕ}
    (hstop : offset + length ≤ contents.flatten.length) :
    st.read fs offset length = .ok (flatRead contents.flatten offset length) := by
  have hread : DiskStorage.readLoop fs
      (st.slices.filter (DiskStorage.overlaps offset (offset + length : ℕ))) (max offset 0 : ℕ)
      (offset + length - max offset 0 : ℕ) =
        .ok (flatRead contents.flatten (max offset 0 - 0) (offset + length - max offset 0)) :=
    readLoop_laid h (by omega) (by omega)
  rw [Nat.max_eq_left (Nat.zero_le _), Nat.add_sub_cancel_left] at hread
  rw [DiskStorage.read, DiskStorage.slicesFor, ← Nat.cast_add]
  exact hread

theorem writeLoop_laid (h : Laid fs base slices contents) (hnodup : (locations fs slices).Nodup)
    {data : Bytes} {offset stop pos : ℕ} (hcur : max offset base ≤ stop)
    (hstop : stop ≤ base + contents.flatten.length)
    (hdata : pos + (stop - max offset base) = data.length) :
    ∃ fs' contents', DiskStorage.writeLoop data
        (slices.filter (DiskStorage.overlaps offset stop)) (max offset base : ℕ) pos
        (stop - max offset base : ℕ) fs = (.ok (), fs') ∧
      Laid fs' base slices contents' ∧
      contents'.flatten =
        flatWrite contents.flatten (max offset base - base) (data.drop pos) ∧
      fs'.cwd = fs.cwd ∧ ∀ loc, loc ∉ locations fs slices → fs'.node loc = fs.node loc := by
  induction slices generalizing fs base contents pos with
  | nil =>
    cases h
    simp only [List.flatten_nil, List.length_nil] at hstop
    have hnil : data.drop pos = [] := List.drop_eq_nil_of_le (by omega)
    refine ⟨fs, [], ?_, .nil, ?_, rfl, fun _ _ => rfl⟩
    · simp [DiskStorage.writeLoop]
    · rw [hnil, flatWrite_nil]
  | cons sl slices ih =>
    cases h with
    | @cons _ path content _ contents hnull hfile hrest =>
    rw [List.flatten_cons, List.length_append] at hstop
    rw [List.flatten_cons]
    obtain ⟨hnotMem, hnodup'⟩ := List.nodup_cons.mp hnodup
    by_cases hbefore : base + content.length ≤ offset
    · have hmax : max offset (base + content.length) = max offset base := by omega
      obtain ⟨fs', contents', hrun, hlaid, hflat, hcwd, hframe⟩ :=
        ih hrest hnodup' (by omega) (by omega) (by rw [hmax]; exact hdata)
      rw [hmax] at hrun hflat
      refine ⟨fs', content :: contents', ?_, ?_, ?_, hcwd, fun loc hm => ?_⟩
      · rw [filter_before hbefore]
        exact hrun
      · have hloc : fs'.locate path = fs.locate path := by rw [Files.locate, Files.locate, hcwd]
        refine .cons hnull ?_ hlaid
        rw [hloc, hframe _ hnotMem, hfile]
      · rw [List.flatten_cons, hflat, flatWrite_append_right (by omega), Nat.sub_add_eq]
      · exact hframe loc fun hm' => hm (List.mem_cons_of_mem _ hm')
    · by_cases hafter : stop ≤ base
      · have hnil : data.drop pos = [] := List.drop_eq_nil_of_le (by omega)
        refine ⟨fs, content :: contents, ?_, .cons hnull hfile hrest, ?_, rfl, fun _ _ => rfl⟩
        · rw [(Laid.cons hnull hfile hrest).adjacent.filter_after hafter]
          simp [DiskStorage.writeLoop]
        · rw [hnil, flatWrite_nil, List.flatten_cons]
      · have hlen : ((data.drop pos).take
            (min stop (base + content.length) - max offset base)).length =
            min stop (base + content.length) - max offset base := by
          rw [List.length_take, List.length_drop]
          omega
        have hsame : (flatWrite content (max offset base - base) ((data.drop pos).take
            (min stop (base + content.length) - max offset base))).length = content.length :=
          length_flatWrite (by omega)
        rw [filter_inside (by omega) (by omega), writeLoop_cons (by omega) (by omega) (by omega),
          syncWrite_file hnull hfile, writeAt_eq_flatWrite (by omega)]
        simp only
        by_cases hlast : stop ≤ base + content.length
        · have hchunk : (data.drop pos).take (min stop (base + content.length) - max offset base) =
              data.drop pos := by
            apply List.take_of_length_le
            rw [List.length_drop]
            omega
          rw [if_pos hlast]
          refine ⟨_, _ :: contents, rfl, .push hnull (put_node_self ..) hsame (hrest.put hnotMem _),
            ?_, rfl, fun loc hm => put_node_of_ne fun heq => hm (heq ▸ List.mem_cons_self ..)⟩
          rw [hchunk] at hlen
          rw [hchunk, List.flatten_cons, flatWrite_append_left (by omega)]
        · have hmax : max offset (base + content.length) = base + content.length := by omega
          obtain ⟨fs', contents', hrun, hlaid, hflat, hcwd, hframe⟩ :=
            ih (hrest.put hnotMem (.file (flatWrite content (max offset base - base)
              ((data.drop pos).take (min stop (base + content.length) - max offset base)))))
              hnodup' (show max offset (base + content.length) ≤ stop by omega) (by omega)
              (show pos + (min stop (base + content.length) - max offset base) +
                (stop - max offset (base + content.length)) = data.length by omega)
          rw [hmax] at hrun hflat
          rw [Nat.sub_self] at hflat
          rw [if_neg hlast]
          refine ⟨fs', _ :: contents', hrun, .push hnull ?_ hsame hlaid, ?_, hcwd, fun loc hm => ?_⟩
          · have hloc : fs'.locate path = fs.locate path := by
              rw [Files.locate, Files.locate, hcwd]
              rfl
            rw [hloc, hframe _ hnotMem]
            exact put_node_self ..
          · rw [List.flatten_cons, hflat, ← flatWrite_append (by omega), ← List.drop_drop,
              List.take_append_drop]
          · rw [hframe loc fun hm' => hm (List.mem_cons_of_mem _ hm')]
            exact put_node_of_ne fun heq => hm (heq ▸ List.mem_cons_self ..)

def directories (fs : Files) (path : PurePath) : List Location := (parents path).map fs.locate

/-- The paths can be opened and name distinct files that do not exist yet, none of which is a
directory on the way to another. -/
structure Fresh (fs : Files) (paths : List PurePath) : Prop where
  no_null : ∀ p ∈ paths, hasNull p = false
  distinct : (paths.map fs.locate).Nodup
  not_directory : ∀ p ∈ paths, ∀ q ∈ paths, fs.locate p ∉ directories fs q
  absent : ∀ p ∈ paths, fs.node (fs.locate p) = none
  directories_free : ∀ q ∈ paths, ∀ d ∈ directories fs q,
    fs.node d = none ∨ fs.node d = some .dir

theorem syncEnsure_fresh {path : PurePath} (length : ℕ) (hnull : hasNull path = false)
    (habsent : fs.node (fs.locate path) = none) (hself : fs.locate path ∉ directories fs path)
    (hdirs : ∀ d ∈ directories fs path, fs.node d = none ∨ fs.node d = some .dir) :
    ∃ fs', syncEnsure fs path length = (.ok (), fs') ∧ Extends fs fs' ∧
      fs'.node (fs.locate path) = some (.file (List.replicate length 0)) ∧
      (∀ d ∈ directories fs path, fs'.node d = some .dir) ∧
      ∀ loc, loc ≠ fs.locate path → loc ∉ directories fs path → fs'.node loc = fs.node loc := by
  obtain ⟨hok, hmade⟩ := mkdirs_ok hdirs
  have hext := mkdirs_extends (directories fs path) fs
  cases hrun : mkdirs (directories fs path) fs with
  | mk r fs1 =>
    rw [hrun] at hok hmade hext
    have hkeep : ∀ loc, loc ∉ directories fs path → fs1.node loc = fs.node loc := by
      intro loc hm
      have hsame : (mkdirs (directories fs path) fs).2.node loc = fs.node loc :=
        mkdirs_node_of_notMem hm
      rwa [hrun] at hsame
    have hnone : fs1.node (fs.locate path) = none := by rw [hkeep _ hself, habsent]
    simp only at hok hmade hext
    subst hok
    refine ⟨fs1.put (fs.locate path) (.file (List.replicate length 0)), ?_,
      hext.trans (extends_put hnone), put_node_self .., fun d hd => ?_, fun loc hne hm => ?_⟩
    · rw [directories] at hrun
      rw [syncEnsure, parents_hasNull hnull, hrun]
      simp only [Bool.false_eq_true, if_false, hnull, hext.locate, hnone, Option.isSome_none]
      rw [if_neg (by omega), Int.toNat_natCast]
    · have hne : d ≠ fs.locate path := by
        rintro rfl
        exact hself hd
      rw [put_node_of_ne hne]
      exact hmade d hd
    · rw [put_node_of_ne hne, hkeep loc hm]

theorem Fresh.tail {path : PurePath} {paths : List PurePath} {fs' : Files}
    (h : Fresh fs (path :: paths)) (hext : Extends fs fs')
    (hmade : ∀ d ∈ directories fs path, fs'.node d = some .dir)
    (hkeep : ∀ loc, loc ≠ fs.locate path → loc ∉ directories fs path → fs'.node loc = fs.node loc) :
    Fresh fs' paths := by
  have hloc : fs'.locate = fs.locate := funext hext.locate
  have hdir : directories fs' = directories fs := by
    funext q
    rw [directories, directories, hloc]
  have hin : ∀ p ∈ paths, p ∈ path :: paths := fun p hp => List.mem_cons_of_mem _ hp
  have hhead : path ∈ path :: paths := List.mem_cons_self ..
  obtain ⟨hne, hnodup⟩ := List.nodup_cons.mp h.distinct
  refine ⟨fun p hp => h.no_null p (hin p hp), by rw [hloc]; exact hnodup, ?_, ?_, ?_⟩
  · rw [hloc, hdir]
    intro p hp q hq
    exact h.not_directory p (hin p hp) q (hin q hq)
  · intro p hp
    rw [hloc, hkeep _ (fun heq => hne (heq ▸ List.mem_map_of_mem hp))
      (h.not_directory p (hin p hp) path hhead)]
    exact h.absent p (hin p hp)
  · intro q hq d hd
    rw [hdir] at hd
    by_cases hshared : d ∈ directories fs path
    · exact Or.inr (hmade d hshared)
    · rw [hkeep d (fun heq => h.not_directory path hhead q (hin q hq) (heq ▸ hd)) hshared]
      exact h.directories_free q (hin q hq) d hd

def zeros (entries : List FileEntry) : List Bytes :=
  entries.map fun e => List.replicate e.length.toNat 0

theorem prepareLoop_fresh {dir : PurePath} (start : ℕ) {entries : List FileEntry}
    (hlen : ∀ e ∈ entries, 0 ≤ e.length)
    (hfresh : Fresh fs (entries.map fun e => join dir e.relativePath)) (before : List FileSlice) :
    ∃ new fs', DiskStorage.prepareLoop dir entries start before fs = (.ok (), before ++ new, fs') ∧
      Laid fs' start new (zeros entries) ∧ Extends fs fs' ∧
      locations fs new = entries.map fun e => fs.locate (join dir e.relativePath) := by
  induction entries generalizing fs start before with
  | nil => exact ⟨[], fs, by simp [DiskStorage.prepareLoop], .nil, Extends.refl fs, rfl⟩
  | cons entry rest ih =>
    obtain ⟨n, hn⟩ := Int.eq_ofNat_of_zero_le (hlen entry (List.mem_cons_self ..))
    have hhead : join dir entry.relativePath ∈
        (entry :: rest).map fun e => join dir e.relativePath := List.mem_cons_self ..
    have hnull := hfresh.no_null _ hhead
    obtain ⟨fs1, hrun, hext, hfile, hmade, hkeep⟩ :=
      syncEnsure_fresh n hnull (hfresh.absent _ hhead)
        (hfresh.not_directory _ hhead _ hhead) (hfresh.directories_free _ hhead)
    obtain ⟨new, fs2, hloop, hlaid, hext2, hlocs⟩ :=
      ih (start + n) (fun e he => hlen e (List.mem_cons_of_mem _ he))
        (hfresh.tail hext hmade hkeep)
        (before ++ [⟨join dir entry.relativePath, 0, start, entry.length⟩])
    refine ⟨⟨join dir entry.relativePath, 0, start, n⟩ :: new, fs2, ?_, ?_, hext.trans hext2, ?_⟩
    · rw [DiskStorage.prepareLoop]
      simp only [hn, hrun]
      rw [hn] at hloop
      rw [← Nat.cast_add, hloop]
      simp
    · have hzero : zeros (entry :: rest) = List.replicate n 0 :: zeros rest := by
        rw [zeros, List.map_cons, hn, Int.toNat_natCast]
        rfl
      rw [hzero]
      refine .push hnull ?_ (List.length_replicate ..) hlaid
      rw [(hext.trans hext2).locate]
      exact hext2.2 _ _ hfile
    · rw [locations_congr hext.1] at hlocs
      rw [locations, List.map_cons, ← locations, hlocs]
      simp only [List.map_cons, hext.locate]

def diskStore (st : DiskStorage) : Store Files StorageError where
  read fs offset length := (st.read fs offset length).mapError .os
  write fs offset data :=
    ((st.write fs offset data).1.mapError .os, (st.write fs offset data).2)

def compactStore (st : CompactStorage) : Store Files StorageError where
  read fs offset length := st.read fs offset length
  write fs offset data := st.write fs offset data

def diskContent (st : DiskStorage) (fs : Files) : Bytes :=
  st.slices.flatMap fun sl =>
    match fs.node (fs.locate sl.path) with
    | some (.file content) => content
    | _ => []

theorem Laid.flatMap_content (h : Laid fs base slices contents) :
    (slices.flatMap fun sl =>
      match fs.node (fs.locate sl.path) with
      | some (.file content) => content
      | _ => []) = contents.flatten := by
  induction h with
  | nil => rfl
  | @cons base path content slices contents hnull hfile hrest ih =>
    rw [List.flatMap_cons, ih, hfile, List.flatten_cons]

/-- The files of the layout hold the array, and everything else is as it was in `fs₀`. -/
structure DiskHolds (st : DiskStorage) (fs₀ : Files) (size : ℕ) (fs : Files) (a : Bytes) :
    Prop where
  cwd : fs.cwd = fs₀.cwd
  distinct : (locations fs st.slices).Nodup
  others : ∀ loc, loc ∉ locations fs₀ st.slices → fs.node loc = fs₀.node loc
  size_eq : a.length = size
  laid : ∃ contents, Laid fs 0 st.slices contents ∧ contents.flatten = a

theorem DiskHolds.content {st : DiskStorage} {fs₀ : Files} {size : ℕ} {a : Bytes}
    (h : DiskHolds st fs₀ size fs a) : diskContent st fs = a := by
  obtain ⟨contents, hlaid, rfl⟩ := h.laid
  exact hlaid.flatMap_content

theorem diskStore_refines (st : DiskStorage) (fs₀ : Files) (size : ℕ) :
    Refines (DiskHolds st fs₀ size) size (diskStore st) (flat StorageError) where
  read fs a offset length h hstop := by
    obtain ⟨contents, hlaid, rfl⟩ := h.laid
    have hread := read_laid hlaid (by rw [h.size_eq]; exact hstop)
    simp only [diskStore, hread, flat]
    rfl
  write fs a offset data h hstop := by
    obtain ⟨contents, hlaid, rfl⟩ := h.laid
    obtain ⟨fs', contents', hrun, hlaid', hflat, hcwd, hframe⟩ :
        ∃ fs' contents', DiskStorage.writeLoop data
            (st.slices.filter (DiskStorage.overlaps offset (offset + data.length : ℕ)))
            (max offset 0 : ℕ) (0 : ℕ) (offset + data.length - max offset 0 : ℕ) fs =
              (.ok (), fs') ∧
          Laid fs' 0 st.slices contents' ∧
          contents'.flatten = flatWrite contents.flatten (max offset 0 - 0) (data.drop 0) ∧
          fs'.cwd = fs.cwd ∧ ∀ loc, loc ∉ locations fs st.slices → fs'.node loc = fs.node loc :=
      writeLoop_laid hlaid h.distinct (by omega) (by rw [h.size_eq]; omega) (by omega)
    rw [Nat.max_eq_left (Nat.zero_le _), Nat.add_sub_cancel_left] at hrun
    rw [Nat.max_eq_left (Nat.zero_le _), Nat.sub_zero, List.drop_zero] at hflat
    have hwrite : st.write fs offset data = (.ok (), fs') := by
      rw [DiskStorage.write, DiskStorage.slicesFor, ← Nat.cast_add]
      exact hrun
    simp only [diskStore, flat, hwrite]
    refine ⟨rfl, hcwd.trans h.cwd, ?_, fun loc hm => ?_, ?_, contents', hlaid', hflat⟩
    · rw [locations_congr hcwd]
      exact h.distinct
    · rw [hframe loc ?_, h.others loc hm]
      rw [locations_congr h.cwd]
      exact hm
    · rw [length_flatWrite (by rw [h.size_eq]; omega), h.size_eq]

structure BlobHolds (st : CompactStorage) (path : PurePath) (size : ℕ) (fs : Files) (a : Bytes) :
    Prop where
  blob : st.blobPath = some path
  no_null : hasNull path = false
  size_eq : a.length = size
  file : fs.node (fs.locate path) = some (.file a)

theorem compactStore_refines (st : CompactStorage) (path : PurePath) (size : ℕ) :
    Refines (BlobHolds st path size) size (compactStore st) (flat StorageError) where
  read fs a offset length h hstop := by
    have hread := syncRead_inside h.no_null h.file (show offset + length ≤ a.length by
      rw [h.size_eq]; exact hstop)
    simp only [compactStore, CompactStorage.read, h.blob, hread, flat]
    rfl
  write fs a offset data h hstop := by
    have hwrite := syncWrite_file h.no_null h.file offset data
    rw [writeAt_eq_flatWrite (by rw [h.size_eq]; exact hstop)] at hwrite
    simp only [compactStore, CompactStorage.write, h.blob, hwrite, flat]
    exact ⟨rfl, h.blob, h.no_null,
      (length_flatWrite (by rw [h.size_eq]; exact hstop)).trans h.size_eq, put_node_self ..⟩

/-- The entries that are laid out: a single file is an entry without path components. -/
def layoutEntries (files : Option (List FileEntry)) (totalLength : ℤ) : List FileEntry :=
  files.getD [⟨[], totalLength⟩]

def layoutPaths (root : PurePath) (files : Option (List FileEntry)) (name : PyStr)
    (totalLength : ℤ) : List PurePath :=
  (layoutEntries files totalLength).map fun e => join (join root (parse name)) e.relativePath

theorem prepareFiles_eq (st : DiskStorage) (files : Option (List FileEntry)) (name : PyStr) :
    st.prepareFiles files name fs =
      let (r, slices, fs) := DiskStorage.prepareLoop (join st.root (parse name))
        (layoutEntries files st.totalLength) 0 [] fs
      (r, { st with slices := slices }, fs) := by
  cases files with
  | some files => rfl
  | none =>
    have hpath : join (join st.root (parse name)) (FileEntry.relativePath ⟨[], st.totalLength⟩) =
        join st.root (parse name) := join_empty _
    simp only [DiskStorage.prepareFiles, layoutEntries, Option.getD_none, DiskStorage.prepareLoop,
      hpath]
    cases syncEnsure fs (join st.root (parse name)) st.totalLength with
    | mk r fs' =>
      cases r with
      | error e => rfl
      | ok u => rfl

theorem prepareFiles_fresh (root : PyStr) (files : Option (List FileEntry)) (name : PyStr)
    (totalLength pieceLength : ℤ) (hlen : ∀ e ∈ layoutEntries files totalLength, 0 ≤ e.length)
    (hfresh : Fresh fs (layoutPaths (parse root) files name totalLength)) :
    ∃ st fs₀, ((DiskStorage.new root).opened totalLength pieceLength).prepareFiles files name fs =
        (.ok (), st, fs₀) ∧
      DiskHolds st fs₀ (zeros (layoutEntries files totalLength)).flatten.length fs₀
        (zeros (layoutEntries files totalLength)).flatten := by
  obtain ⟨new, fs₀, hloop, hlaid, hext, hlocs⟩ := prepareLoop_fresh 0 hlen hfresh []
  refine ⟨⟨parse root, new, totalLength, pieceLength⟩, fs₀, ?_, rfl, ?_, fun _ _ => rfl, rfl,
    _, hlaid, rfl⟩
  · rw [prepareFiles_eq]
    simp only [DiskStorage.opened, DiskStorage.new]
    rw [Nat.cast_zero, List.nil_append] at hloop
    rw [hloop]
  · rw [locations_congr hext.1, hlocs]
    have := hfresh.distinct
    rwa [layoutPaths, List.map_map] at this

theorem hexDigit_ne (n : ℕ) : hexDigit n ≠ slash ∧ hexDigit n ≠ 0 := by
  unfold hexDigit slash
  split <;> omega

theorem mem_hex {b : Bytes} {c : ℕ} (h : c ∈ hex b) : c ≠ slash ∧ c ≠ 0 := by
  obtain ⟨x, -, hx⟩ := List.mem_flatMap.mp h
  rcases List.mem_cons.mp hx with rfl | hx
  · exact hexDigit_ne _
  · rw [List.mem_singleton.mp hx]
    exact hexDigit_ne _

theorem parse_blobName (infoHash : Bytes) :
    parse (hex infoHash ++ blobSuffix) = ⟨.relative, [hex infoHash ++ blobSuffix]⟩ := by
  have hlen : 5 ≤ (hex infoHash ++ blobSuffix).length := by simp [blobSuffix]
  refine parse_part (fun hm => ?_) (fun heq => ?_) (fun heq => ?_)
  · rcases List.mem_append.mp hm with hm | hm
    · exact (mem_hex hm).1 rfl
    · exact absurd hm (by decide)
  · rw [heq] at hlen
    exact absurd hlen (by decide)
  · rw [heq] at hlen
    exact absurd hlen (by decide)

def blobPathOf (root : PurePath) (infoHash : Bytes) : PurePath :=
  join root (parse (hex infoHash ++ blobSuffix))

theorem directories_blobPath (fs : Files) (root : PurePath) (infoHash : Bytes) :
    directories fs (blobPathOf root infoHash) =
      root.parts.inits.map fun parts => fs.locate ⟨root.root, parts⟩ := by
  rw [directories, parents, blobPathOf, join_relative (by rw [parse_blobName]), parse_blobName]
  simp only [List.dropLast_concat, List.map_map]
  rfl

theorem prepare_fresh (root : PyStr) (infoHash : Bytes) (size : ℕ) (pieceLength : ℤ)
    (hfresh : Fresh fs [blobPathOf (parse root) infoHash]) :
    ∃ st fs₀, ((CompactStorage.new root).opened size pieceLength).prepare (hex infoHash) fs =
        (.ok (), st, fs₀) ∧
      BlobHolds st (blobPathOf (parse root) infoHash) size fs₀ (List.replicate size 0) := by
  have hin : blobPathOf (parse root) infoHash ∈ [blobPathOf (parse root) infoHash] := List.mem_singleton_self _
  have hnull := hfresh.no_null _ hin
  have hrootNull : hasNull (parse root) = false := by
    rw [hasNull_eq_false] at hnull ⊢
    intro part hm
    refine hnull part ?_
    rw [blobPathOf, join_relative (by rw [parse_blobName])]
    exact List.mem_append_left _ hm
  obtain ⟨hok, hmade⟩ := mkdirs_ok (hfresh.directories_free _ hin)
  have hext := mkdirs_extends (directories fs (blobPathOf (parse root) infoHash)) fs
  have habsent : (mkdirs (directories fs (blobPathOf (parse root) infoHash)) fs).2.node
      (fs.locate (blobPathOf (parse root) infoHash)) = none := by
    rw [mkdirs_node_of_notMem (hfresh.not_directory _ hin _ hin)]
    exact hfresh.absent _ hin
  cases hrun : mkdirs (directories fs (blobPathOf (parse root) infoHash)) fs with
  | mk r fs1 =>
    rw [hrun] at hok hmade hext habsent
    simp only at hok hmade hext habsent
    subst hok
    have hdir : directories fs1 (blobPathOf (parse root) infoHash) =
        directories fs (blobPathOf (parse root) infoHash) :=
      List.map_congr_left fun q _ => hext.locate q
    obtain ⟨fs₀, hens, hext₀, hfile, -, -⟩ := syncEnsure_fresh size hnull
      (by rw [hext.locate]; exact habsent)
      (by rw [hext.locate, hdir]; exact hfresh.not_directory _ hin _ hin)
      (by rw [hdir]; exact fun d hd => Or.inr (hmade d hd))
    refine ⟨⟨parse root, some (blobPathOf (parse root) infoHash), size, pieceLength⟩, fs₀, ?_, rfl, hnull,
      List.length_replicate .., ?_⟩
    · rw [directories_blobPath] at hrun
      rw [CompactStorage.prepare]
      simp only [CompactStorage.opened, CompactStorage.new, hrootNull, Bool.false_eq_true, if_false,
        hrun]
      rw [← blobPathOf, hens]
    · rw [hext₀.locate]
      exact hfile

/-- From the prepared state on, the results of every list of operations inside the array are those
of the array, the files hold what the array holds, a write changes its own range only, and nothing
but the files of the layout is touched. -/
structure BehavesFlat (st : DiskStorage) (fs₀ : Files) (a : Bytes) : Prop where
  results : ∀ ops, (∀ op ∈ ops, op.stop ≤ a.length) →
    ((diskStore st).run ops fs₀).1 = ((flat StorageError).run ops a).1
  content : ∀ ops, (∀ op ∈ ops, op.stop ≤ a.length) →
    diskContent st ((diskStore st).run ops fs₀).2 = ((flat StorageError).run ops a).2
  own_range : ∀ ops, (∀ op ∈ ops, op.stop ≤ a.length) →
    ∀ (offset : ℕ) (data : Bytes) (i : ℕ), offset + data.length ≤ a.length →
      (i < offset ∨ offset + data.length ≤ i) →
      (diskContent st (st.write ((diskStore st).run ops fs₀).2 offset data).2)[i]? =
        (diskContent st ((diskStore st).run ops fs₀).2)[i]?
  others : ∀ ops, (∀ op ∈ ops, op.stop ≤ a.length) → ∀ loc, loc ∉ locations fs₀ st.slices →
    ((diskStore st).run ops fs₀).2.node loc = fs₀.node loc

theorem DiskHolds.behavesFlat {st : DiskStorage} {fs₀ : Files} {a : Bytes}
    (h : DiskHolds st fs₀ a.length fs₀ a) : BehavesFlat st fs₀ a := by
  have hrun : ∀ ops : List Op, (∀ op ∈ ops, op.stop ≤ a.length) →
      ((diskStore st).run ops fs₀).1 = ((flat StorageError).run ops a).1 ∧
        DiskHolds st fs₀ a.length ((diskStore st).run ops fs₀).2 ((flat StorageError).run ops a).2 :=
    fun ops hops => run_refines (diskStore_refines st fs₀ a.length) h hops
  refine ⟨fun ops hops => (hrun ops hops).1, fun ops hops => (hrun ops hops).2.content, ?_,
    fun ops hops => (hrun ops hops).2.others⟩
  intro ops hops offset data i hstop hi
  have hholds := (hrun ops hops).2
  have hwrite := ((diskStore_refines st fs₀ a.length).write _ _ offset data hholds hstop).2
  have hafter : diskContent st (st.write ((diskStore st).run ops fs₀).2 offset data).2 =
      flatWrite ((flat StorageError).run ops a).2 offset data := hwrite.content
  rw [hafter, hholds.content]
  exact flatWrite_getElem?_outside (by rw [hholds.size_eq]; exact hstop) hi

theorem zeros_flatten {entries : List FileEntry} (hlen : ∀ e ∈ entries, 0 ≤ e.length) :
    ∃ size : ℕ, (size : ℤ) = (entries.map fun e => e.length).sum ∧
      (zeros entries).flatten = List.replicate size 0 := by
  induction entries with
  | nil => exact ⟨0, rfl, rfl⟩
  | cons e rest ih =>
    obtain ⟨size, hsum, hflat⟩ := ih fun u hu => hlen u (List.mem_cons_of_mem _ hu)
    obtain ⟨n, hn⟩ := Int.eq_ofNat_of_zero_le (hlen e (List.mem_cons_self ..))
    refine ⟨n + size, ?_, ?_⟩
    · rw [List.map_cons, List.sum_cons, hn, ← hsum, Nat.cast_add]
    · have hcons : zeros (e :: rest) = List.replicate n 0 :: zeros rest := by
        rw [zeros, List.map_cons, hn, Int.toNat_natCast]
        rfl
      rw [hcons, List.flatten_cons, hflat, List.replicate_append_replicate]

/-- `DiskStorage` on fresh files behaves like an array of zeros, and so like `CompactStorage` on a
fresh blob of the same size. -/
theorem disk_storage_behaves_flat (root name : PyStr) (files : Option (List FileEntry))
    (totalLength pieceLength : ℤ) (fs : Files)
    (hlen : ∀ e ∈ layoutEntries files totalLength, 0 ≤ e.length)
    (hfresh : Fresh fs (layoutPaths (parse root) files name totalLength)) :
    ∃ st fs₀, ((DiskStorage.new root).opened totalLength pieceLength).prepareFiles files name fs =
        (.ok (), st, fs₀) ∧
      ∃ size : ℕ, (size : ℤ) = ((layoutEntries files totalLength).map fun e => e.length).sum ∧
        BehavesFlat st fs₀ (List.replicate size 0) ∧
        ∀ (blobRoot : PyStr) (infoHash : Bytes) (gs : Files),
          Fresh gs [blobPathOf (parse blobRoot) infoHash] →
          ∃ ct gs₀, ((CompactStorage.new blobRoot).opened size pieceLength).prepare (hex infoHash) gs =
              (.ok (), ct, gs₀) ∧
            ∀ ops, (∀ op ∈ ops, op.stop ≤ size) →
              ((compactStore ct).run ops gs₀).1 = ((diskStore st).run ops fs₀).1 := by
  obtain ⟨st, fs₀, hprep, hholds⟩ :=
    prepareFiles_fresh root files name totalLength pieceLength hlen hfresh
  obtain ⟨size, hsize, hflat⟩ := zeros_flatten hlen
  rw [hflat] at hholds
  have hflatDisk := hholds.behavesFlat
  refine ⟨st, fs₀, hprep, size, hsize, hflatDisk, fun blobRoot infoHash gs hblob => ?_⟩
  obtain ⟨ct, gs₀, hcprep, hcholds⟩ := prepare_fresh blobRoot infoHash size pieceLength hblob
  refine ⟨ct, gs₀, hcprep, fun ops hops => ?_⟩
  rw [(run_refines (compactStore_refines ct _ size) hcholds hops).1,
    hflatDisk.results ops (by rwa [List.length_replicate])]

def threeFiles : List FileEntry := [⟨[[97]], 3⟩, ⟨[[98]], 0⟩, ⟨[[99]], 2⟩]

theorem three_files_behave_flat :
    ∃ st fs₀, ((DiskStorage.new [47, 114]).opened 5 2).prepareFiles (some threeFiles) [110]
        ⟨[], fun _ => none⟩ = (.ok (), st, fs₀) ∧
      ∃ size : ℕ, (size : ℤ) = 5 ∧ BehavesFlat st fs₀ (List.replicate size 0) := by
  obtain ⟨st, fs₀, hprep, size, hsize, hflat, -⟩ :=
    disk_storage_behaves_flat [47, 114] [110] (some threeFiles) 5 2 ⟨[], fun _ => none⟩
      (by decide) ⟨by decide, by decide, by decide, fun _ _ => rfl, fun _ _ _ _ => Or.inl rfl⟩
  exact ⟨st, fs₀, hprep, size, hsize, hflat⟩

end StorageRefinement
