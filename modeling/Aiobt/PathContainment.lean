import Aiobt.TorrentStorage

/-! # Where the files of a torrent are laid out

`prepare_files` places every file under the root directory by joining the root, the name and the
path components of the metadata, none of which are checked. -/
namespace PathContainment

open ByteStrings PosixPaths FileSystem SurrogateUtf8 TorrentMetadata TorrentStorage

/-- The paths of the files as the metadata gives them, before they are joined to the root. -/
def metaPaths (info : TorrentInfo) : List PurePath :=
  match info.files with
  | some files => files.map fun entry => ofSegments (info.name :: entry.path)
  | none => [parse info.name]

/-- The slices that `prepare_files` records for a torrent under a root directory. -/
def layout (root : PyStr) (totalLength : ℤ) (info : TorrentInfo) (fs : Files) : List FileSlice :=
  (((DiskStorage.new root).opened totalLength info.pieceLength).prepareFiles info.files info.name
    fs).2.1.slices

/-- Whatever the root directory and the file system, every laid out path that can be opened at
all lies strictly below the root. -/
def StaysBelow (info : TorrentInfo) : Prop :=
  ∀ root totalLength fs, ∀ sl ∈ layout root totalLength info fs, hasNull sl.path = false →
    StrictlyBelow (parse root) sl.path

/-- Paths after one with a null are never reached. -/
def reachedPaths (info : TorrentInfo) : List PurePath :=
  (metaPaths info).takeWhile fun q => !hasNull q

theorem hasNull_join_of {p q : PurePath} (hp : hasNull p = false) (hq : hasNull q = false) :
    hasNull (join p q) = false := by
  unfold join
  split
  · rw [hasNull_eq_false] at *
    intro part hm
    rcases List.mem_append.mp hm with hm | hm
    · exact hp part hm
    · exact hq part hm
  · exact hq

theorem hasNull_of_join {p q : PurePath} (h : hasNull (join p q) = false) : hasNull q = false := by
  unfold join at h
  split at h
  · rw [hasNull_eq_false] at *
    intro part hm
    exact h part (List.mem_append_right _ hm)
  · exact h

theorem syncEnsure_ok_hasNull {fs : Files} {path : PurePath} {length : ℤ}
    (h : (syncEnsure fs path length).1 = .ok ()) : hasNull path = false := by
  unfold syncEnsure at h
  split at h
  · simp at h
  · split at h
    · simp at h
    · cases hn : hasNull path with
      | false => rfl
      | true => simp [hn] at h

/-- Every recorded slice belongs to an entry before which no path has a null. -/
theorem prepareLoop_mem {base : PurePath} {entries : List FileEntry} {offset : ℤ}
    {slices : List FileSlice} {fs : Files} {sl : FileSlice}
    (h : sl ∈ (DiskStorage.prepareLoop base entries offset slices fs).2.1) :
    sl ∈ slices ∨ ∃ pre entry post, entries = pre ++ entry :: post ∧
      sl.path = join base entry.relativePath ∧
      ∀ e ∈ pre, hasNull (join base e.relativePath) = false := by
  induction entries generalizing offset slices fs with
  | nil => exact Or.inl h
  | cons entry rest ih =>
    have hpushed : ∀ l ∈ slices ++ [⟨join base entry.relativePath, 0, offset, entry.length⟩],
        l = sl → sl ∈ slices ∨ ∃ pre e post, entry :: rest = pre ++ e :: post ∧
          sl.path = join base e.relativePath ∧
          ∀ e ∈ pre, hasNull (join base e.relativePath) = false := by
      intro l hl heq
      rcases List.mem_append.mp hl with hl | hl
      · exact Or.inl (heq ▸ hl)
      · rw [List.mem_singleton] at hl
        exact Or.inr ⟨[], entry, rest, rfl, by rw [← heq, hl], by simp⟩
    unfold DiskStorage.prepareLoop at h
    cases hens : syncEnsure fs (join base entry.relativePath) entry.length with
    | mk r fs' =>
      cases r with
      | error e =>
        simp only [hens] at h
        exact hpushed sl h rfl
      | ok u =>
        simp only [hens] at h
        have hnull := syncEnsure_ok_hasNull (by rw [hens])
        rcases ih h with hm | ⟨pre, e, post, rfl, hpath, hpre⟩
        · exact hpushed sl hm rfl
        · refine Or.inr ⟨entry :: pre, e, post, rfl, hpath, fun a ha => ?_⟩
          rcases List.mem_cons.mp ha with rfl | ha
          · exact hnull
          · exact hpre a ha

theorem subset_prepareLoop {base : PurePath} {entries : List FileEntry} {offset : ℤ}
    {slices : List FileSlice} {fs : Files} :
    slices ⊆ (DiskStorage.prepareLoop base entries offset slices fs).2.1 := by
  induction entries generalizing offset slices fs with
  | nil => exact List.Subset.refl _
  | cons entry rest ih =>
    unfold DiskStorage.prepareLoop
    simp only
    split
    · exact List.subset_append_left _ _
    · exact List.Subset.trans (List.subset_append_left _ _) ih

def allDirs : Files := ⟨[], fun _ => some .dir⟩

theorem syncEnsure_allDirs {path : PurePath} (h : hasNull path = false) (length : ℤ) :
    syncEnsure allDirs path length = (.ok (), allDirs) :=
  syncEnsure_existing h (fun _ _ => rfl) rfl length

theorem prepareLoop_allDirs {base : PurePath} {pre post : List FileEntry} {entry : FileEntry}
    (hpre : ∀ e ∈ pre, hasNull (join base e.relativePath) = false) (offset : ℤ)
    (slices : List FileSlice) :
    ∃ sl ∈ (DiskStorage.prepareLoop base (pre ++ entry :: post) offset slices allDirs).2.1,
      sl.path = join base entry.relativePath := by
  induction pre generalizing offset slices with
  | nil =>
    rw [List.nil_append, DiskStorage.prepareLoop]
    refine ⟨⟨join base entry.relativePath, 0, offset, entry.length⟩, ?_, rfl⟩
    split
    · simp
    · exact subset_prepareLoop (by simp)
  | cons e rest ih =>
    rw [List.cons_append, DiskStorage.prepareLoop]
    simp only [syncEnsure_allDirs (hpre e (List.mem_cons_self ..))]
    exact ih (fun a ha => hpre a (List.mem_cons_of_mem _ ha)) _ _

theorem mem_takeWhile {α : Type*} {P : α → Bool} {l : List α} {a : α} :
    a ∈ l.takeWhile P ↔ ∃ pre post, l = pre ++ a :: post ∧ P a = true ∧ ∀ b ∈ pre, P b = true := by
  constructor
  · intro h
    obtain ⟨pre, post, hsplit⟩ := List.append_of_mem h
    have hall : ∀ b ∈ l.takeWhile P, P b = true := fun b hb => List.mem_takeWhile_imp hb
    refine ⟨pre, post ++ l.dropWhile P, ?_, hall a h, fun b hb => hall b ?_⟩
    · rw [← List.cons_append, ← List.append_assoc, ← hsplit, List.takeWhile_append_dropWhile]
    · rw [hsplit]
      exact List.mem_append_left _ hb
  · rintro ⟨pre, post, rfl, ha, hpre⟩
    rw [List.takeWhile_append_of_pos hpre, List.takeWhile_cons_of_pos ha]
    simp

theorem layout_allDirs {root : PyStr} {info : TorrentInfo} {pre post : List PurePath} {q : PurePath}
    (hroot : hasNull (parse root) = false) (hsplit : metaPaths info = pre ++ q :: post)
    (hpre : ∀ b ∈ pre, hasNull b = false) :
    ∃ sl ∈ layout root 0 info allDirs, sl.path = join (parse root) q := by
  unfold metaPaths at hsplit
  unfold layout DiskStorage.prepareFiles
  cases hfiles : info.files with
  | none =>
    rw [hfiles] at hsplit
    cases pre with
    | nil =>
      obtain rfl : parse info.name = q := (List.cons.inj hsplit).1
      exact ⟨_, List.mem_singleton_self _, rfl⟩
    | cons b pre =>
      have := congrArg List.length hsplit
      simp at this
  | some files =>
    rw [hfiles] at hsplit
    obtain ⟨before, after, rfl, rfl, hafter⟩ := List.map_eq_append_iff.mp hsplit
    obtain ⟨entry, rest, rfl, rfl, -⟩ := List.map_eq_cons_iff.mp hafter
    rw [← join_parse_ofSegments]
    refine prepareLoop_allDirs (fun e he => ?_) 0 []
    change hasNull (join (join (parse root) (parse info.name)) (ofSegments e.path)) = false
    rw [join_parse_ofSegments]
    exact hasNull_join_of hroot (hpre _ (List.mem_map_of_mem he))

theorem layout_reached {root : PyStr} {totalLength : ℤ} {info : TorrentInfo} {fs : Files}
    {sl : FileSlice} (hm : sl ∈ layout root totalLength info fs) (hnull : hasNull sl.path = false) :
    ∃ q ∈ reachedPaths info, sl.path = join (parse root) q := by
  unfold layout DiskStorage.prepareFiles at hm
  unfold reachedPaths metaPaths
  cases hfiles : info.files with
  | none =>
    rw [hfiles] at hm
    obtain rfl := List.mem_singleton.mp hm
    refine ⟨parse info.name, mem_takeWhile.mpr ⟨[], [], rfl, ?_, by simp⟩, rfl⟩
    rw [hasNull_of_join hnull]
    rfl
  | some files =>
    rw [hfiles] at hm
    rcases prepareLoop_mem hm with hm | ⟨pre, entry, post, rfl, hpath, hpre⟩
    · cases hm
    · have hjoin : ∀ e : FileEntry, join (join (parse root) (parse info.name)) e.relativePath =
          join (parse root) (ofSegments (info.name :: e.path)) :=
        fun e => join_parse_ofSegments (parse root) info.name e.path
      refine ⟨ofSegments (info.name :: entry.path), mem_takeWhile.mpr ?_, hpath.trans (hjoin entry)⟩
      refine ⟨pre.map fun e => ofSegments (info.name :: e.path),
        post.map fun e => ofSegments (info.name :: e.path), by simp, ?_, fun b hb => ?_⟩
      · rw [hpath.trans (hjoin entry)] at hnull
        rw [hasNull_of_join hnull]
        rfl
      · obtain ⟨e, he, rfl⟩ := List.mem_map.mp hb
        have hclean : hasNull (join (join (parse root) (parse info.name)) e.relativePath) = false :=
          hpre e he
        rw [hjoin] at hclean
        rw [hasNull_of_join hclean]
        rfl

/-- A torrent's files stay below every root directory exactly when each path of its metadata, up
to the first that has a null, is relative and its parts descend. -/
theorem staysBelow_iff_descends (info : TorrentInfo) :
    StaysBelow info ↔
      ∀ q ∈ reachedPaths info, q.root = .relative ∧ descends 0 q.parts = true := by
  constructor
  · intro h q hq
    obtain ⟨pre, post, hsplit, hnull, hpre⟩ := mem_takeWhile.mp hq
    by_contra hesc
    obtain ⟨root, hroot, hnot⟩ := exists_root_not_strictlyBelow hesc
    rw [← hasNull_eq_false] at hroot
    have hjoin : hasNull (join (parse root) q) = false :=
      hasNull_join_of hroot (by simpa using hnull)
    obtain ⟨sl, hm, hpath⟩ := layout_allDirs hroot hsplit fun b hb => by simpa using hpre b hb
    exact hnot (hpath ▸ h root 0 allDirs sl hm (hpath ▸ hjoin))
  · intro h root totalLength fs sl hm hnull
    obtain ⟨q, hq, hpath⟩ := layout_reached hm hnull
    rw [hpath]
    exact strictlyBelow_of_descends _ (h q hq).1 (h q hq).2

/-- `d4:infod6:lengthi1e4:name4:../x12:piece lengthi1e6:pieces0:ee`. -/
def dotdotTorrent : Bytes :=
  [100, 52, 58, 105, 110, 102, 111, 100, 54, 58, 108, 101, 110, 103, 116, 104, 105, 49, 101, 52, 58,
    110, 97, 109, 101, 52, 58, 46, 46, 47, 120, 49, 50, 58, 112, 105, 101, 99, 101, 32, 108, 101,
    110, 103, 116, 104, 105, 49, 101, 54, 58, 112, 105, 101, 99, 101, 115, 48, 58, 101, 101]

def dotdotInfo : TorrentInfo :=
  { name := [46, 46, 47, 120], pieceLength := 1, piecesRaw := [], length := some 1, files := none,
    isPrivate := false }

def srv : PyStr := [47, 115, 114, 118]

/-- With the root `/srv` the file is created as `/x`. -/
theorem dotdot_torrent_escapes :
    (∀ sha1 : Bytes → Bytes, ∃ m, parseTorrentBytes sha1 4300 1000 dotdotTorrent = .ok m ∧
      m.info = dotdotInfo) ∧
    (((DiskStorage.new srv).opened 1 1).prepareFiles none dotdotInfo.name
      ⟨[], fun _ => none⟩).2.2.node [[120]] = some (.file [0]) ∧
    ¬ StaysBelow dotdotInfo := by
  refine ⟨fun sha1 => ⟨_, rfl, rfl⟩, by decide, ?_⟩
  intro h
  obtain ⟨-, rest, -, -, heq⟩ :=
    h srv 1 ⟨[], fun _ => none⟩ ⟨⟨.slash, [[115, 114, 118], dotdot, [120]]⟩, 0, 0, 1⟩ (by decide) rfl
  have hx : ([[120]] : List Part) = [115, 114, 118] :: rest := heq
  cases hx

end PathContainment
