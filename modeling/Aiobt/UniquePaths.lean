import Aiobt.CreatedTorrents

/-! # The paths of a created torrent

`create_torrent` names a file by its path relative to the path that was given, with the last name of
that path in front where several are given. -/
namespace UniquePaths

open ByteStrings PosixPaths FileSystem TorrentMetadata TorrentCreation CreatedTorrents
open SurrogateUtf8 (PyStr)

/-- A file that is neither hidden nor empty, below a directory. -/
structure Eligible (d : Disk) (loc : Location) (rel : List Part) : Prop where
  below : rel ≠ []
  walked : loc ++ rel ∈ d.entries
  visible : rel.any isHidden = false
  file : ∃ content, d.files.node (loc ++ rel) = some (.file content) ∧ content ≠ []

def Contains (d : Disk) (loc : Location) (rel : List Part) : Prop :=
  ((∃ content, d.files.node loc = some (.file content)) ∧ rel = []) ∨
    (d.files.node loc = some .dir ∧ Eligible d loc rel)

/-- Two given paths stand for files that have one path behind the last names of the two. -/
def Clash (d : Disk) (a b : Location) : Prop :=
  ∃ rel rel', Contains d a rel ∧ Contains d b rel' ∧
    a.getLast?.toList ++ rel = b.getLast?.toList ++ rel'

/-- Apart from the root directory: equal names, and two files or a file that both directories have. -/
theorem clash_iff {d : Disk} {a b : Location} (ha : a ≠ []) (hb : b ≠ []) :
    Clash d a b ↔ baseName a = baseName b ∧ ∃ rel, Contains d a rel ∧ Contains d b rel := by
  have hlast : ∀ {loc : Location}, loc ≠ [] → loc.getLast?.toList = [baseName loc] := by
    intro loc hne
    rw [baseName, List.getLast?_eq_some_getLast hne]
    rfl
  rw [Clash, hlast ha, hlast hb]
  constructor
  · rintro ⟨rel, rel', h, h', heq⟩
    obtain ⟨hname, rfl⟩ := List.cons.inj heq
    exact ⟨hname, rel, h, h'⟩
  · rintro ⟨hname, rel, h, h'⟩
    exact ⟨rel, rel, h, h', by rw [hname]⟩

def specsOf (d : Disk) (loc : Location) : List FileSpec :=
  match d.files.node loc with
  | some (.file content) => [⟨loc, [baseName loc], content.length⟩]
  | some .dir => (scanDir d loc).map fun spec =>
      { spec with torrentPath := baseName loc :: spec.torrentPath }
  | none => []

def relParts (spec : FileSpec) : List Part := spec.torrentPath.filter fun part => part ≠ []

section

variable {d : Disk} {loc : Location} {locs : List Location} {specs : List FileSpec} {name : PyStr}

theorem scanOne_ok (h : scanOne d loc = .ok specs) : specs = specsOf d loc := by
  unfold scanOne at h
  rw [specsOf]
  split at h
  · next content hfile =>
    rw [hfile]
    exact (Except.ok.inj h).symm
  · cases h
  · next hdir =>
    rw [hdir]
    cases hscan : scanPath d loc with
    | error e =>
      rw [hscan] at h
      cases h
    | ok scanned =>
      obtain ⟨name, dirSpecs⟩ := scanned
      rw [hscan] at h
      rcases (scanPath_ok hscan).2 with ⟨content, hfile, -⟩ | ⟨-, rfl, -⟩
      · cases hdir.symm.trans hfile
      · exact (Except.ok.inj h).symm

theorem scanAll_ok (h : scanAll d locs = .ok specs) : specs = locs.flatMap (specsOf d) := by
  induction locs generalizing specs with
  | nil =>
    obtain rfl := Except.ok.inj h
    rfl
  | cons loc locs ih =>
    rw [scanAll] at h
    cases hone : scanOne d loc with
    | error e =>
      rw [hone] at h
      cases h
    | ok front =>
      cases hall : scanAll d locs with
      | error e =>
        rw [hone, hall] at h
        cases h
      | ok more =>
        rw [hone, hall] at h
        rw [List.flatMap_cons, ← scanOne_ok hone, ← ih hall]
        exact (Except.ok.inj h).symm

theorem scanChild_eq_some_iff {child : Location} {spec : FileSpec} :
    scanChild d loc child = some spec ↔ ∃ content, d.files.node child = some (.file content) ∧
      (child.drop loc.length).any isHidden = false ∧ content ≠ [] ∧
        spec = ⟨child, child.drop loc.length, content.length⟩ := by
  unfold scanChild
  split
  · next content hfile =>
    dsimp only
    split_ifs with hhidden hempty
    · refine iff_of_false (fun h => by cases h) ?_
      rintro ⟨_, _, hvisible, -⟩
      exact Bool.false_ne_true (hvisible.symm.trans hhidden)
    · refine iff_of_false (fun h => by cases h) ?_
      rintro ⟨content', hfile', -, hne, -⟩
      obtain rfl : content = content' := by simpa [hfile] using hfile'
      exact hne (List.length_eq_zero_iff.mp hempty)
    · constructor
      · intro h
        have hvisible := Bool.eq_false_of_not_eq_true hhidden
        exact ⟨content, hfile, hvisible, fun hnil => hempty (hnil ▸ rfl), (Option.some.inj h).symm⟩
      · rintro ⟨content', hfile', -, -, rfl⟩
        obtain rfl : content = content' := by simpa [hfile] using hfile'
        rfl
  · next hother =>
    refine iff_of_false (fun h => by cases h) ?_
    rintro ⟨content, hfile, -⟩
    exact hother content hfile

theorem mem_rglob {child : Location} :
    child ∈ d.rglob loc ↔ child ∈ d.entries ∧ ∃ rel, rel ≠ [] ∧ child = loc ++ rel := by
  rw [Disk.rglob, List.mem_filter, decide_eq_true_eq]
  constructor
  · rintro ⟨hentry, ⟨rel, rfl⟩, hne⟩
    exact ⟨hentry, rel, fun hnil => hne (by rw [hnil, List.append_nil]), rfl⟩
  · rintro ⟨hentry, rel, hne, rfl⟩
    exact ⟨hentry, List.prefix_append _ _, fun heq => hne (List.append_right_eq_self.mp heq)⟩

theorem mem_scanDir {spec : FileSpec} :
    spec ∈ scanDir d loc ↔ Eligible d loc spec.torrentPath ∧
      spec.diskPath = loc ++ spec.torrentPath ∧ spec.length = (d.content spec.diskPath).length := by
  rw [scanDir, List.mem_filterMap]
  constructor
  · rintro ⟨child, hchild, hspec⟩
    rw [List.mem_insertionSort, mem_rglob] at hchild
    obtain ⟨hentry, rel, hne, rfl⟩ := hchild
    obtain ⟨content, hfile, hvisible, hcontent, rfl⟩ := scanChild_eq_some_iff.mp hspec
    rw [List.drop_left' rfl] at hvisible ⊢
    exact ⟨⟨hne, hentry, hvisible, content, hfile, hcontent⟩, rfl, by rw [content_of_file hfile]⟩
  · rintro ⟨⟨hne, hentry, hvisible, content, hfile, hcontent⟩, hplace, hlength⟩
    refine ⟨loc ++ spec.torrentPath, ?_, scanChild_eq_some_iff.mpr ⟨content, hfile, ?_, hcontent, ?_⟩⟩
    · rw [List.mem_insertionSort, mem_rglob]
      exact ⟨hentry, _, hne, rfl⟩
    · rwa [List.drop_left' rfl]
    · rw [hplace, content_of_file hfile] at hlength
      rw [List.drop_left' rfl, ← hplace, ← hlength]

theorem nodup_scanDir (hwalk : d.entries.Nodup) (loc : Location) :
    ((scanDir d loc).map FileSpec.torrentPath).Nodup := by
  have hchildren : ((d.rglob loc).insertionSort (· ≤ ·)).Nodup :=
    (List.perm_insertionSort _ _).nodup_iff.mpr (hwalk.filter _)
  have hplaces : ((scanDir d loc).map FileSpec.diskPath).Nodup := by
    refine List.pairwise_map.mpr
      (List.Pairwise.filterMap _ (fun a b hne spec hspec spec' hspec' => ?_) hchildren)
    obtain ⟨_, -, -, -, rfl⟩ := scanChild_eq_some_iff.mp hspec
    obtain ⟨_, -, -, -, rfl⟩ := scanChild_eq_some_iff.mp hspec'
    exact hne
  have hbelow : ((scanDir d loc).map FileSpec.torrentPath).map (loc ++ ·) =
      (scanDir d loc).map FileSpec.diskPath := by
    rw [List.map_map]
    exact List.map_congr_left fun spec hspec => (mem_scanDir.mp hspec).2.1.symm
  exact List.Nodup.of_map _ (hbelow ▸ hplaces)

theorem relParts_of_names {spec : FileSpec} (h : ∀ part ∈ spec.torrentPath, part ≠ []) :
    relParts spec = spec.torrentPath :=
  List.filter_eq_self.mpr fun part hpart => decide_eq_true (h part hpart)

theorem Eligible.names {rel : List Part} (h : Eligible d loc rel) : ∀ part ∈ rel, IsName part := by
  obtain ⟨content, hfile, -⟩ := h.file
  exact fun part hpart => d.names _ _ hfile part (List.mem_append_right loc hpart)

theorem filter_baseName {n : Node} (hnode : d.files.node loc = some n) {rel : List Part}
    (hrel : ∀ part ∈ rel, part ≠ []) :
    (baseName loc :: rel).filter (fun part => part ≠ []) = loc.getLast?.toList ++ rel := by
  have hkeep : ∀ parts : List Part, (∀ part ∈ parts, part ≠ []) →
      parts.filter (fun part => part ≠ []) = parts :=
    fun parts h => List.filter_eq_self.mpr fun part hpart => decide_eq_true (h part hpart)
  rw [baseName]
  cases hlast : loc.getLast? with
  | none => exact hkeep rel hrel
  | some last =>
    have hname := (d.names _ _ hnode last (List.mem_of_getLast? hlast)).ne_nil
    exact hkeep (last :: rel) (List.forall_mem_cons.mpr ⟨hname, hrel⟩)

theorem relParts_below {spec : FileSpec} (hdir : d.files.node loc = some .dir)
    (h : spec ∈ scanDir d loc) :
    relParts { spec with torrentPath := baseName loc :: spec.torrentPath } =
      loc.getLast?.toList ++ spec.torrentPath :=
  filter_baseName hdir fun part hpart => ((mem_scanDir.mp h).1.names part hpart).ne_nil

theorem mem_relParts {parts : List Part} :
    parts ∈ (specsOf d loc).map relParts ↔
      ∃ rel, Contains d loc rel ∧ parts = loc.getLast?.toList ++ rel := by
  rw [specsOf]
  cases hnode : d.files.node loc with
  | none =>
    refine iff_of_false List.not_mem_nil ?_
    rintro ⟨rel, ⟨⟨content, hfile⟩, -⟩ | ⟨hdir, -⟩, -⟩
    · cases hnode.symm.trans hfile
    · cases hnode.symm.trans hdir
  | some node =>
    cases node with
    | file content =>
      have hpath : relParts ⟨loc, [baseName loc], content.length⟩ = loc.getLast?.toList ++ [] :=
        filter_baseName hnode fun part hpart => absurd hpart List.not_mem_nil
      dsimp only
      rw [List.map_singleton, hpath, List.mem_singleton]
      constructor
      · rintro rfl
        exact ⟨[], Or.inl ⟨⟨content, hnode⟩, rfl⟩, rfl⟩
      · rintro ⟨rel, ⟨-, rfl⟩ | ⟨hdir, -⟩, rfl⟩
        · rfl
        · cases hnode.symm.trans hdir
    | dir =>
      dsimp only
      rw [List.map_map, List.mem_map]
      constructor
      · rintro ⟨spec, hspec, rfl⟩
        exact ⟨_, Or.inr ⟨hnode, (mem_scanDir.mp hspec).1⟩, relParts_below hnode hspec⟩
      · rintro ⟨rel, ⟨⟨content, hfile⟩, -⟩ | ⟨-, heligible⟩, rfl⟩
        · cases hnode.symm.trans hfile
        · have hspec : ⟨loc ++ rel, rel, (d.content (loc ++ rel)).length⟩ ∈ scanDir d loc :=
            mem_scanDir.mpr ⟨heligible, rfl, rfl⟩
          exact ⟨_, hspec, relParts_below hnode hspec⟩

theorem nodup_relParts (hwalk : d.entries.Nodup) (loc : Location) :
    ((specsOf d loc).map relParts).Nodup := by
  rw [specsOf]
  cases hnode : d.files.node loc with
  | none => exact List.nodup_nil
  | some node =>
    cases node with
    | file content => exact List.nodup_singleton _
    | dir =>
      dsimp only
      have hpaths : ((scanDir d loc).map fun spec =>
          { spec with torrentPath := baseName loc :: spec.torrentPath }).map relParts =
            ((scanDir d loc).map FileSpec.torrentPath).map (loc.getLast?.toList ++ ·) := by
        rw [List.map_map, List.map_map]
        exact List.map_congr_left fun spec hspec => relParts_below hnode hspec
      rw [hpaths]
      exact (nodup_scanDir hwalk loc).map (List.append_right_injective _)

theorem disjoint_iff {a b : Location} :
    ((specsOf d a).map relParts).Disjoint ((specsOf d b).map relParts) ↔ ¬ Clash d a b := by
  constructor
  · rintro hdisjoint ⟨rel, rel', ha, hb, heq⟩
    exact hdisjoint (mem_relParts.mpr ⟨rel, ha, rfl⟩) (mem_relParts.mpr ⟨rel', hb, heq⟩)
  · intro hclash parts hfront hback
    obtain ⟨rel, ha, rfl⟩ := mem_relParts.mp hfront
    obtain ⟨rel', hb, heq⟩ := mem_relParts.mp hback
    exact hclash ⟨rel, rel', ha, hb, heq⟩

/-- Several paths give distinct ones exactly where no two of them clash. -/
theorem nodup_flatMap_iff (hwalk : d.entries.Nodup) (locs : List Location) :
    ((locs.flatMap (specsOf d)).map relParts).Nodup ↔ locs.Pairwise fun a b => ¬ Clash d a b := by
  rw [List.map_flatMap, List.nodup_flatMap]
  constructor
  · rintro ⟨-, hpairs⟩
    exact hpairs.imp fun h => disjoint_iff.mp h
  · intro hpairs
    exact ⟨fun loc _ => nodup_relParts hwalk loc, hpairs.imp fun h => disjoint_iff.mpr h⟩

end

def storedAt (fs : Files) (root : PurePath) (name : PyStr) (spec : FileSpec) : Location :=
  fs.locate (join (join root (parse name)) (FileEntry.relativePath ⟨spec.torrentPath, spec.length⟩))

theorem locate_join (fs : Files) (p : PurePath) {rel : List Part} (h : dotdot ∉ rel) :
    fs.locate (join p ⟨.relative, rel⟩) = fs.locate p ++ rel := by
  have habsolute : (⟨p.root, p.parts ++ rel⟩ : PurePath).isAbsolute = p.isAbsolute := rfl
  rw [join_relative rfl, Files.locate, Files.locate, habsolute]
  split
  · rw [List.foldl_append, foldl_pushPart_plain true h]
  · rw [← List.append_assoc, List.foldl_append, foldl_pushPart_plain true h]

theorem ofSegments_filter (path : List Part)
    (h : ∀ part ∈ path, part = [] ∨ (slash ∉ part ∧ part ≠ [] ∧ part ≠ dot)) :
    ofSegments path = ⟨.relative, path.filter fun part => part ≠ []⟩ := by
  have hskip : ∀ p : PurePath, path.foldl (fun p s => join p (parse s)) p =
      (path.filter fun part => part ≠ []).foldl (fun p s => join p (parse s)) p := by
    induction path with
    | nil => exact fun p => rfl
    | cons part rest ih =>
      intro p
      rw [List.foldl_cons, ih fun s hs => h s (List.mem_cons_of_mem _ hs)]
      rcases h part List.mem_cons_self with rfl | ⟨-, hne, -⟩
      · rw [List.filter_cons_of_neg (by simp), show join p (parse []) = p from join_empty p]
      · rw [List.filter_cons_of_pos (by simpa using hne), List.foldl_cons]
  rw [← ofSegments_parts, ofSegments, hskip]
  · rfl
  · intro part hpart
    obtain ⟨hmem, hne⟩ := List.mem_filter.mp hpart
    exact (h part hmem).resolve_left (of_decide_eq_true hne)

/-- No two specs have one path, and no two files of the torrent are stored in one place. -/
structure Unique (fs : Files) (root : PurePath) (name : PyStr) (specs : List FileSpec) : Prop where
  paths : (specs.map FileSpec.torrentPath).Nodup
  places : (specs.map (storedAt fs root name)).Nodup

def Named (specs : List FileSpec) : Prop :=
  ∀ spec ∈ specs, ∀ part ∈ spec.torrentPath, part = [] ∨ IsName part

theorem unique_iff {specs : List FileSpec} (h : Named specs) (fs : Files) (root : PurePath)
    (name : PyStr) : Unique fs root name specs ↔ (specs.map relParts).Nodup := by
  have hplaces : specs.map (storedAt fs root name) =
      (specs.map relParts).map (fs.locate (join root (parse name)) ++ ·) := by
    rw [List.map_map]
    refine List.map_congr_left fun spec hspec => ?_
    have hsegments := ofSegments_filter spec.torrentPath fun part hpart =>
      (h spec hspec part hpart).imp_right fun hname => ⟨hname.no_slash, hname.ne_nil, hname.ne_dot⟩
    have hplain : dotdot ∉ relParts spec := by
      intro hmem
      rcases h spec hspec dotdot (List.mem_of_mem_filter hmem) with hnil | hname
      · cases hnil
      · exact hname.ne_dotdot rfl
    rw [storedAt, FileEntry.relativePath, hsegments]
    exact locate_join fs _ hplain
  constructor
  · intro hunique
    exact List.Nodup.of_map _ (hplaces ▸ hunique.places)
  · intro hnodup
    refine ⟨?_, hplaces ▸ hnodup.map (List.append_right_injective _)⟩
    have hfilter : specs.map relParts =
        (specs.map FileSpec.torrentPath).map (List.filter fun part => part ≠ []) := by
      rw [List.map_map]
      rfl
    exact List.Nodup.of_map _ (hfilter ▸ hnodup)

section

variable {d : Disk} {paths : List PurePath} {specs : List FileSpec} {name : PyStr}

theorem named_baseName {loc : Location} {n : Node} (hnode : d.files.node loc = some n) :
    baseName loc = [] ∨ IsName (baseName loc) := by
  rw [baseName]
  cases hlast : loc.getLast? with
  | none => exact Or.inl rfl
  | some last => exact Or.inr (d.names _ _ hnode last (List.mem_of_getLast? hlast))

theorem named_scanDir (loc : Location) : Named (scanDir d loc) :=
  fun _ hspec part hpart => Or.inr ((mem_scanDir.mp hspec).1.names part hpart)

theorem named_file {loc : Location} {n : Node} (hnode : d.files.node loc = some n) (length : ℕ) :
    Named [⟨loc, [baseName loc], length⟩] := by
  intro spec hspec part hpart
  obtain rfl := List.mem_singleton.mp hspec
  obtain rfl := List.mem_singleton.mp hpart
  exact named_baseName hnode

theorem named_specsOf (loc : Location) : Named (specsOf d loc) := by
  rw [specsOf]
  cases hnode : d.files.node loc with
  | none => exact fun spec hspec => absurd hspec List.not_mem_nil
  | some node =>
    cases node with
    | file content => exact named_file hnode _
    | dir =>
      intro spec hspec part hpart
      obtain ⟨inner, hinner, rfl⟩ := List.mem_map.mp hspec
      rcases List.mem_cons.mp hpart with rfl | hmem
      · exact named_baseName hnode
      · exact named_scanDir loc inner hinner part hmem

theorem scanPath_unique (hwalk : d.entries.Nodup) {loc : Location}
    (h : scanPath d loc = .ok (name, specs)) : Named specs ∧ (specs.map relParts).Nodup := by
  rcases (scanPath_ok h).2 with ⟨content, hfile, rfl⟩ | ⟨hdir, rfl, -⟩
  · exact ⟨named_file hfile _, List.nodup_singleton _⟩
  · refine ⟨named_scanDir loc, ?_⟩
    have hsame : (scanDir d loc).map relParts = (scanDir d loc).map FileSpec.torrentPath :=
      List.map_congr_left fun spec hspec =>
        relParts_of_names fun part hpart => ((mem_scanDir.mp hspec).1.names part hpart).ne_nil
    rw [hsame]
    exact nodup_scanDir hwalk loc

theorem scanPaths_nodup_iff (hwalk : d.entries.Nodup) (h : scanPaths d paths = .ok (name, specs)) :
    Named specs ∧ ((specs.map relParts).Nodup ↔
      (paths.map d.resolve).Pairwise fun a b => ¬ Clash d a b) := by
  rw [scanPaths] at h
  split at h
  · next loc hone =>
    obtain ⟨hnamed, hnodup⟩ := scanPath_unique hwalk h
    rw [hone]
    exact ⟨hnamed, iff_of_true hnodup (List.pairwise_singleton _ _)⟩
  · cases hall : scanAll d (paths.map d.resolve) with
    | error e =>
      rw [hall] at h
      cases h
    | ok all =>
      rw [hall] at h
      change (if all = [] then _ else _) = _ at h
      split_ifs at h
      obtain rfl : all = specs := congrArg Prod.snd (Except.ok.inj h)
      rw [scanAll_ok hall]
      refine ⟨?_, nodup_flatMap_iff hwalk _⟩
      intro spec hspec
      obtain ⟨loc, -, hmem⟩ := List.mem_flatMap.mp hspec
      exact named_specsOf loc spec hmem

end

/-- The files of a new torrent have distinct paths and places exactly where no two of the given paths
stand for files that have one path behind their last names. A walk finds every path once. -/
theorem unique_paths_iff {d : Disk} (hwalk : d.entries.Nodup) {paths : List PurePath} {name : PyStr}
    {specs : List FileSpec} (h : scanPaths d paths = .ok (name, specs)) (fs : Files)
    (root : PurePath) :
    Unique fs root name specs ↔ (paths.map d.resolve).Pairwise fun a b => ¬ Clash d a b := by
  obtain ⟨hnamed, hnodup⟩ := scanPaths_nodup_iff hwalk h
  exact (unique_iff hnamed fs root name).trans hnodup

theorem unique_paths_nested :
    scanPaths oneFile [⟨.slash, [[100]]⟩, ⟨.slash, [[100], [102]]⟩] =
        .ok ([100], [⟨[[100], [102]], [[100], [102]], 1⟩, ⟨[[100], [102]], [[102]], 1⟩]) ∧
      Unique oneFile.files ⟨.slash, []⟩ [100]
        [⟨[[100], [102]], [[100], [102]], 1⟩, ⟨[[100], [102]], [[102]], 1⟩] := by
  have hwalk : oneFile.entries.Nodup := by decide
  have hscan : scanPaths oneFile [⟨.slash, [[100]]⟩, ⟨.slash, [[100], [102]]⟩] =
      .ok ([100], [⟨[[100], [102]], [[100], [102]], 1⟩, ⟨[[100], [102]], [[102]], 1⟩]) := by decide
  refine ⟨hscan, (unique_paths_iff hwalk hscan oneFile.files ⟨.slash, []⟩).mpr ?_⟩
  refine List.pairwise_pair.mpr fun hclash => ?_
  obtain ⟨hname, -⟩ := (clash_iff (List.cons_ne_nil _ _) (List.cons_ne_nil _ _)).mp hclash
  revert hname
  decide

def twoFilesNode (loc : Location) : Option Node :=
  if loc = [] ∨ loc = [[100]] ∨ loc = [[100], [100]] then some .dir
  else if loc = [[100], [102]] then some (.file [7])
  else if loc = [[100], [100], [102]] then some (.file [8]) else none

def twoFiles : Disk where
  files := ⟨[], twoFilesNode⟩
  resolve p := Files.locate ⟨[], twoFilesNode⟩ p
  entries := [[[100]], [[100], [100]], [[100], [102]], [[100], [100], [102]]]
  parent_dir loc n h hne := by
    simp only [twoFilesNode] at h
    split_ifs at h with h1 h2 h3
    · rcases h1 with rfl | rfl | rfl
      · exact absurd rfl hne
      · rfl
      · rfl
    · rw [h2]
      rfl
    · rw [h3]
      rfl
  names loc n h part hpart := by
    have hletter : part = [100] ∨ part = [102] := by
      simp only [twoFilesNode] at h
      split_ifs at h with h1 h2 h3
      · rcases h1 with rfl | rfl | rfl
        · cases hpart
        · exact Or.inl (List.mem_singleton.mp hpart)
        · exact Or.inl (by simpa using hpart)
      · rw [h2] at hpart
        simpa using hpart
      · rw [h3] at hpart
        simpa using hpart
    rcases hletter with rfl | rfl
    · exact ⟨by decide, by decide, by decide, by decide, by decide⟩
    · exact ⟨by decide, by decide, by decide, by decide, by decide⟩
  cwd_dir := rfl

/-- Two files of one name get one path, and a storage keeps them in one place. -/
theorem equal_names_collide :
    scanPaths twoFiles [⟨.slash, [[100], [102]]⟩, ⟨.slash, [[100], [100], [102]]⟩] =
        .ok ([100], [⟨[[100], [102]], [[102]], 1⟩, ⟨[[100], [100], [102]], [[102]], 1⟩]) ∧
      twoFiles.content [[100], [102]] ≠ twoFiles.content [[100], [100], [102]] ∧
      ¬ ([⟨[[100], [102]], [[102]], 1⟩, ⟨[[100], [100], [102]], [[102]], 1⟩].map
          FileSpec.torrentPath).Nodup ∧
      storedAt twoFiles.files ⟨.slash, []⟩ [100] ⟨[[100], [102]], [[102]], 1⟩ =
        storedAt twoFiles.files ⟨.slash, []⟩ [100] ⟨[[100], [100], [102]], [[102]], 1⟩ := by
  decide

end UniquePaths
