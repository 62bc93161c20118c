import Aiobt.BencodeDicts
import Aiobt.StrictUtf8
import Aiobt.TorrentMetadata
import Aiobt.Sha1

/-! # Torrent metadata as bytes

`_info_to_bencode` and `torrent_to_bytes` of `create.py`, and what the parser of `torrent.py` reads
of them. -/
namespace TorrentSerialization

open ByteStrings PyDecimal BencodeCodec BencodeRoundTrip BencodeDicts SurrogateUtf8 StrictUtf8
  TorrentMetadata

inductive SerializeError where
  | unicodeEncode
  | codec (error : PyError)
  deriving DecidableEq, Repr

abbrev Serialized (α : Type) := Except SerializeError α

theorem bind_ok {ε α β : Type} {x : Except ε α} {f : α → Except ε β} {b : β}
    (h : x.bind f = .ok b) : ∃ a, x = .ok a ∧ f a = .ok b := by
  cases x with
  | error e => cases h
  | ok a => exact ⟨a, rfl, h⟩

def utf8 (s : PyStr) : Serialized Bytes :=
  match encodeUtf8 s with
  | none => .error .unicodeEncode
  | some data => .ok data

def utf8List : List PyStr → Serialized (List BencodeValue)
  | [] => .ok []
  | s :: rest => do
    let data ← utf8 s
    let more ← utf8List rest
    .ok (.bytes data :: more)

def utf8OrNone : Option PyStr → Serialized (Option BencodeValue)
  | none => .ok none
  | some s => do
    let data ← utf8 s
    .ok (some (.bytes data))

def filesToBencode : List FileEntry → Serialized (List BencodeValue)
  | [] => .ok []
  | f :: rest => do
    let path ← utf8List f.path
    let more ← filesToBencode rest
    .ok (.dict [(keyLength, .int f.length), (keyPath, .list path)] :: more)

def filesOrNone : Option (List FileEntry) → Serialized (Option BencodeValue)
  | none => .ok none
  | some files => do
    let fileList ← filesToBencode files
    .ok (some (.list fileList))

def infoSlots (info : TorrentInfo) (name : Bytes) (files : Option BencodeValue) :
    List (Bytes × Option BencodeValue) :=
  [(keyName, some (.bytes name)), (keyPieceLength, some (.int info.pieceLength)),
    (keyPieces, some (.bytes info.piecesRaw)), (keyLength, info.length.map .int),
    (keyFiles, files), (keyPrivate, if info.isPrivate then some (.int 1) else none)]

def infoToBencode (info : TorrentInfo) : Serialized Dict := do
  let name ← utf8 info.name
  let files ← filesOrNone info.files
  .ok (present (infoSlots info name files))

def tiersToBencode : List (List PyStr) → Serialized (List BencodeValue)
  | [] => .ok []
  | tier :: rest => do
    let urls ← utf8List tier
    let more ← tiersToBencode rest
    .ok (.list urls :: more)

def tiersOrNone : Option (List (List PyStr)) → Serialized (Option BencodeValue)
  | none => .ok none
  | some tiers => do
    let al ← tiersToBencode tiers
    .ok (some (.list al))

def topSlots (m : TorrentMeta) (info : Dict) (announce announceList comment createdBy :
    Option BencodeValue) : List (Bytes × Option BencodeValue) :=
  [(keyInfo, some (.dict info)), (keyAnnounce, announce), (keyAnnounceList, announceList),
    (keyCreationDate, m.creationDate.map .int), (keyComment, comment), (keyCreatedBy, createdBy)]

def metaToBencode (m : TorrentMeta) : Serialized Dict := do
  let info ← infoToBencode m.info
  let announce ← utf8OrNone m.announce
  let announceList ← tiersOrNone m.announceList
  let comment ← utf8OrNone m.comment
  let createdBy ← utf8OrNone m.createdBy
  .ok (present (topSlots m info announce announceList comment createdBy))

def torrentToBytes (maxDigits : ℕ) (m : TorrentMeta) : Serialized Bytes := do
  let top ← metaToBencode m
  match encode maxDigits (.dict top) with
  | .error e => .error (.codec e)
  | .ok data => .ok data

def infoInts (info : TorrentInfo) : List ℤ :=
  info.pieceLength :: (info.length.toList ++ ((info.files.getD []).map (fun f => f.length) ++
    if info.isPrivate then [1] else []))

def infoStrings (info : TorrentInfo) : List PyStr :=
  info.name :: (info.files.getD []).flatMap fun f => f.path

def metaStrings (m : TorrentMeta) : List PyStr :=
  infoStrings m.info ++ (m.announce.toList ++ ((m.announceList.getD []).flatten ++
    (m.comment.toList ++ m.createdBy.toList)))

/-- A string whose UTF-8 is a byte string that Python can hold. -/
def Storable (s : PyStr) : Prop := ∃ data, encodeUtf8 s = some data ∧ data.length < 2 ^ 63

theorem utf8_storable {s : PyStr} (h : Storable s) :
    ∃ data, utf8 s = .ok data ∧ data.length < 2 ^ 63 ∧ decodeUtf8 data = s := by
  obtain ⟨data, hdata, hlen⟩ := h
  refine ⟨data, ?_, hlen, decodeUtf8_encodeUtf8 hdata⟩
  rw [utf8, hdata]

theorem utf8_ok {s : PyStr} {data : Bytes} (h : utf8 s = .ok data) : encodeUtf8 s = some data := by
  unfold utf8 at h
  cases hs : encodeUtf8 s with
  | none => simp [hs] at h
  | some data' =>
    simp only [hs] at h
    rw [Except.ok.inj h]

variable {maxDigits : ℕ}

/-- What the parts of a torrent are serialized to: a value that the encoder takes, with few levels.
With the limit 0 its integers may be of any size. -/
structure Flat (maxDigits levels : ℕ) (v : BencodeValue) : Prop where
  encodable : Encodable maxDigits v
  nesting : nesting v ≤ levels

theorem Flat.list {levels : ℕ} {items : List BencodeValue}
    (h : ∀ v ∈ items, Flat maxDigits levels v) :
    Flat maxDigits (levels + 1) (.list items) := by
  constructor
  · rw [BencodeRoundTrip.Encodable, encodableList_iff]
    intro v hv
    exact (h v hv).encodable
  · rw [BencodeRoundTrip.nesting]
    have hle : nestingList items ≤ levels := by
      induction items with
      | nil => exact Nat.zero_le _
      | cons v rest ih =>
        rw [nestingList, Nat.max_le]
        exact ⟨(h v List.mem_cons_self).nesting, ih fun u hu => h u (List.mem_cons_of_mem v hu)⟩
    omega

theorem Flat.dict {levels : ℕ} {items : Dict} (hkeys : UniqueKeys items)
    (h : ∀ e ∈ items, e.1.length < 2 ^ 63 ∧ Flat maxDigits levels e.2) :
    Flat maxDigits (levels + 1) (.dict items) := by
  constructor
  · rw [BencodeRoundTrip.Encodable, encodableItems_iff]
    exact ⟨hkeys, fun e he => ⟨(h e he).1, (h e he).2.encodable⟩⟩
  · rw [BencodeRoundTrip.nesting]
    have hle : nestingItems items ≤ levels := by
      clear hkeys
      induction items with
      | nil => exact Nat.zero_le _
      | cons e rest ih =>
        rw [nestingItems, Nat.max_le]
        exact ⟨(h e List.mem_cons_self).2.nesting, ih fun u hu => h u (List.mem_cons_of_mem e hu)⟩
    omega

theorem Flat.present {levels : ℕ} {slots : List (Bytes × Option BencodeValue)}
    (hkeys : UniqueKeys slots) (hsizes : ∀ slot ∈ slots, slot.1.length < 2 ^ 63)
    (h : ∀ slot ∈ slots, ∀ v ∈ slot.2, Flat maxDigits levels v) :
    Flat maxDigits (levels + 1) (.dict (present slots)) := by
  apply Flat.dict (uniqueKeys_present hkeys)
  intro e he
  have hslot := mem_present.mp he
  exact ⟨hsizes _ hslot, h _ hslot e.2 rfl⟩

theorem Flat.int {value : ℤ} (h : WithinLimit maxDigits (digitCount value)) :
    Flat maxDigits 1 (.int value) := ⟨h, le_rfl⟩

theorem Flat.bytes {data : Bytes} (h : data.length < 2 ^ 63) : Flat maxDigits 1 (.bytes data) :=
  ⟨h, le_rfl⟩

theorem Flat.mono {levels levels' : ℕ} {v : BencodeValue} (h : Flat maxDigits levels v)
    (hle : levels ≤ levels') : Flat maxDigits levels' v := ⟨h.encodable, h.nesting.trans hle⟩

theorem utf8List_storable {ss : List PyStr} (h : ∀ s ∈ ss, Storable s) :
    ∃ vs, utf8List ss = .ok vs ∧ (∀ v ∈ vs, Flat maxDigits 1 v) ∧
      parsePath (canonList vs) = .ok ss ∧ parseTier (canonList vs) = .ok ss := by
  induction ss with
  | nil => exact ⟨[], rfl, by simp, rfl, rfl⟩
  | cons s rest ih =>
    rw [List.forall_mem_cons] at h
    obtain ⟨data, hdata, hlen, hdecode⟩ := utf8_storable h.1
    obtain ⟨more, hmore, hflat, hpath, htier⟩ := ih h.2
    refine ⟨.bytes data :: more, ?_, ?_, ?_, ?_⟩
    · simp [utf8List, hdata, hmore, bind, Except.bind]
    · rw [List.forall_mem_cons]
      exact ⟨.bytes hlen, hflat⟩
    · simp [canonList, canon, parsePath, hpath, hdecode, bind, Except.bind]
    · simp [canonList, canon, parseTier, htier, hdecode, bind, Except.bind]

theorem uniqueKeys_file (length : ℤ) (path : List BencodeValue) :
    UniqueKeys [(keyLength, BencodeValue.int length), (keyPath, .list path)] := by
  simp [UniqueKeys, keyLength, keyPath]

theorem parseFile_canon {f : FileEntry} {path : List BencodeValue}
    (hpath : parsePath (canonList path) = .ok f.path) :
    parseFile (canon (.dict [(keyLength, .int f.length), (keyPath, .list path)])) = .ok f := by
  have hunique := uniqueKeys_file f.length path
  have hlength := lookup_canon hunique keyLength
  have hlist := lookup_canon hunique keyPath
  have hne : (keyPath == keyLength) = false := by decide
  simp only [List.lookup_cons, beq_self_eq_true, hne, Option.map_some, canon] at hlength hlist
  simp [canon, parseFile, requireInt, intOrNone, requireSome, hlength, hlist, hpath, bind,
    Except.bind]

theorem filesToBencode_storable {files : List FileEntry}
    (h : ∀ f ∈ files, ∀ s ∈ f.path, Storable s)
    (hints : ∀ f ∈ files, WithinLimit maxDigits (digitCount f.length)) :
    ∃ vs, filesToBencode files = .ok vs ∧ (∀ v ∈ vs, Flat maxDigits 3 v) ∧
      parseFiles (canonList vs) = .ok files := by
  induction files with
  | nil => exact ⟨[], rfl, by simp, rfl⟩
  | cons f rest ih =>
    rw [List.forall_mem_cons] at h hints
    obtain ⟨path, hpath, hflat, hparse, -⟩ := utf8List_storable h.1
    obtain ⟨more, hmore, hmoreflat, hmoreparse⟩ := ih h.2 hints.2
    refine ⟨.dict [(keyLength, .int f.length), (keyPath, .list path)] :: more, ?_, ?_, ?_⟩
    · simp [filesToBencode, hpath, hmore, bind, Except.bind]
    · rw [List.forall_mem_cons]
      refine ⟨.dict (uniqueKeys_file f.length path) ?_, hmoreflat⟩
      rw [List.forall_mem_cons, List.forall_mem_singleton]
      have hlength : keyLength.length < 2 ^ 63 := by decide
      have hpathKey : keyPath.length < 2 ^ 63 := by decide
      exact ⟨⟨hlength, (Flat.int hints.1).mono (by omega)⟩, hpathKey, .list hflat⟩
    · unfold parseFiles at hmoreparse ⊢
      rw [canonList, List.mapM_cons, parseFile_canon hparse, hmoreparse]
      rfl

theorem tiersToBencode_storable {tiers : List (List PyStr)} (h : ∀ s ∈ tiers.flatten, Storable s) :
    ∃ vs, tiersToBencode tiers = .ok vs ∧ (∀ v ∈ vs, Flat maxDigits 2 v) ∧
      parseAnnounceList (canonList vs) = .ok tiers := by
  induction tiers with
  | nil => exact ⟨[], rfl, by simp, rfl⟩
  | cons tier rest ih =>
    rw [List.flatten_cons, List.forall_mem_append] at h
    obtain ⟨urls, hurls, hflat, -, hparse⟩ := utf8List_storable h.1
    obtain ⟨more, hmore, hmoreflat, hmoreparse⟩ := ih h.2
    refine ⟨.list urls :: more, ?_, ?_, ?_⟩
    · simp [tiersToBencode, hurls, hmore, bind, Except.bind]
    · rw [List.forall_mem_cons]
      exact ⟨.list hflat, hmoreflat⟩
    · unfold parseAnnounceList at hmoreparse ⊢
      rw [canonList, List.mapM_cons, hmoreparse]
      simp only [canon, hparse]
      rfl

theorem utf8OrNone_storable {s : Option PyStr} (h : ∀ x ∈ s.toList, Storable x) :
    ∃ v, utf8OrNone s = .ok v ∧ (∀ x ∈ v, Flat maxDigits 1 x) ∧
      ∀ (d : Dict) (key : Bytes), d.lookup key = v.map canon → strOrNone d key = .ok s := by
  cases s with
  | none =>
    refine ⟨none, rfl, by simp, ?_⟩
    intro d key hlookup
    simp [strOrNone, bytesOrNone, hlookup, bind, Except.bind]
  | some s =>
    obtain ⟨data, hdata, hlen, hdecode⟩ := utf8_storable (h s (by simp))
    refine ⟨some (.bytes data), ?_, ?_, ?_⟩
    · simp [utf8OrNone, hdata, bind, Except.bind]
    · rintro x ⟨⟩
      exact .bytes hlen
    · intro d key hlookup
      simp [strOrNone, bytesOrNone, hlookup, canon, hdecode, bind, Except.bind]

theorem filesOrNone_storable {files : Option (List FileEntry)}
    (h : ∀ f ∈ files.getD [], ∀ s ∈ f.path, Storable s)
    (hints : ∀ f ∈ files.getD [], WithinLimit maxDigits (digitCount f.length)) :
    ∃ v, filesOrNone files = .ok v ∧ (∀ x ∈ v, Flat maxDigits 4 x) ∧
      ∀ d : Dict, d.lookup keyFiles = v.map canon → parseRawFiles d = .ok files := by
  cases files with
  | none =>
    refine ⟨none, rfl, by simp, ?_⟩
    intro d hlookup
    simp [parseRawFiles, hlookup]
  | some files =>
    rw [Option.getD_some] at h hints
    obtain ⟨vs, hvs, hflat, hparse⟩ := filesToBencode_storable h hints
    refine ⟨some (.list vs), ?_, ?_, ?_⟩
    · simp [filesOrNone, hvs, bind, Except.bind]
    · rintro x ⟨⟩
      exact .list hflat
    · intro d hlookup
      simp [parseRawFiles, hlookup, canon, hparse, bind, Except.bind]

def ReadsTiers (d : Dict) : Option (List (List PyStr)) → Prop
  | none => d.lookup keyAnnounceList = none
  | some tiers => ∃ raw, d.lookup keyAnnounceList = some (.list raw) ∧
      parseAnnounceList raw = .ok tiers

theorem tiersOrNone_storable {tiers : Option (List (List PyStr))}
    (h : ∀ s ∈ (tiers.getD []).flatten, Storable s) :
    ∃ v, tiersOrNone tiers = .ok v ∧ (∀ x ∈ v, Flat maxDigits 3 x) ∧
      ∀ d : Dict, d.lookup keyAnnounceList = v.map canon → ReadsTiers d tiers := by
  cases tiers with
  | none => exact ⟨none, rfl, by simp, fun d hlookup => hlookup⟩
  | some tiers =>
    rw [Option.getD_some] at h
    obtain ⟨vs, hvs, hflat, hparse⟩ := tiersToBencode_storable h
    refine ⟨some (.list vs), ?_, ?_, ?_⟩
    · simp [tiersOrNone, hvs, bind, Except.bind]
    · rintro x ⟨⟩
      exact .list hflat
    · intro d hlookup
      exact ⟨canonList vs, hlookup, hparse⟩

theorem parseTop_ok {infoHash : Bytes} {info : TorrentInfo} {d : Dict} {m : TorrentMeta}
    (hinfo : m.info = info) (hhash : m.infoHash = infoHash)
    (hannounce : strOrNone d keyAnnounce = .ok m.announce) (htiers : ReadsTiers d m.announceList)
    (hdate : intOrNone d keyCreationDate = .ok m.creationDate)
    (hcomment : strOrNone d keyComment = .ok m.comment)
    (hcreatedBy : strOrNone d keyCreatedBy = .ok m.createdBy) :
    parseTop infoHash info d = .ok m := by
  obtain ⟨info', infoHash', announce, announceList, date, comment, createdBy⟩ := m
  simp only at hinfo hhash hannounce htiers hdate hcomment hcreatedBy
  subst hinfo hhash
  cases announceList with
  | none =>
    have hnone : d.lookup keyAnnounceList = none := htiers
    simp only [parseTop, hannounce, hdate, hcomment, hcreatedBy, hnone, bind, Except.bind]
  | some tiers =>
    obtain ⟨raw, hraw, hparse⟩ := htiers
    simp only [parseTop, hannounce, hdate, hcomment, hcreatedBy, hraw, hparse, bind, Except.bind]

theorem keys_infoSlots (info : TorrentInfo) (name : Bytes) (files : Option BencodeValue) :
    (infoSlots info name files).map Prod.fst =
      [keyName, keyPieceLength, keyPieces, keyLength, keyFiles, keyPrivate] := rfl

theorem uniqueKeys_infoSlots (info : TorrentInfo) (name : Bytes) (files : Option BencodeValue) :
    UniqueKeys (infoSlots info name files) := by
  rw [UniqueKeys, keys_infoSlots]
  decide

structure InfoEntries (d : Dict) (info : TorrentInfo) (name : Bytes) : Prop where
  name : d.lookup keyName = some (.bytes name)
  pieceLength : d.lookup keyPieceLength = some (.int info.pieceLength)
  pieces : d.lookup keyPieces = some (.bytes info.piecesRaw)
  length : d.lookup keyLength = info.length.map .int
  isPrivate : d.lookup keyPrivate = if info.isPrivate then some (.int 1) else none

theorem intOrNone_map {d : Dict} {key : Bytes} {value : Option ℤ}
    (h : d.lookup key = value.map .int) : intOrNone d key = .ok value := by
  cases value with
  | none => simp [intOrNone, h]
  | some value => simp [intOrNone, h]

theorem InfoEntries.parseInfo {d : Dict} {info : TorrentInfo} {name : Bytes}
    (h : InfoEntries d info name) (hname : decodeUtf8 name = info.name)
    (hfiles : parseRawFiles d = .ok info.files)
    (hcontent : info.length ≠ none ∨ info.files ≠ none) :
    TorrentMetadata.parseInfo d = .ok info := by
  have hlength := intOrNone_map h.length
  have hprivate : intOrNone d keyPrivate = .ok (if info.isPrivate then some 1 else none) := by
    apply intOrNone_map
    rw [h.isPrivate]
    split <;> rfl
  have hsome : ¬ (info.length = none ∧ info.files = none) := by
    rintro ⟨hl, hf⟩
    rcases hcontent with hc | hc
    · exact hc hl
    · exact hc hf
  have hflag : ((if info.isPrivate then some (1 : ℤ) else none) == some 1) = info.isPrivate := by
    cases info.isPrivate <;> rfl
  have hnameRaw : requireBytes d keyName = .ok name := by
    simp [requireBytes, bytesOrNone, requireSome, h.name, bind, Except.bind]
  have hpieceLength : requireInt d keyPieceLength = .ok info.pieceLength := by
    simp [requireInt, intOrNone, requireSome, h.pieceLength, bind, Except.bind]
  have hpieces : requireBytes d keyPieces = .ok info.piecesRaw := by
    simp [requireBytes, bytesOrNone, requireSome, h.pieces, bind, Except.bind]
  simp only [TorrentMetadata.parseInfo, hnameRaw, hpieceLength, hpieces, hlength, hfiles, hprivate,
    bind, Except.bind, if_neg hsome, hname, hflag]

theorem infoToBencode_storable {info : TorrentInfo} (h : ∀ s ∈ infoStrings info, Storable s)
    (hints : ∀ z ∈ infoInts info, WithinLimit maxDigits (digitCount z))
    (hpieces : info.piecesRaw.length < 2 ^ 63)
    (hcontent : info.length ≠ none ∨ info.files ≠ none) :
    ∃ d, infoToBencode info = .ok d ∧ Flat maxDigits 5 (.dict d) ∧
      parseInfo (sortedItems (canonItems d)) = .ok info := by
  rw [infoStrings, List.forall_mem_cons] at h
  simp only [infoInts, List.forall_mem_cons, List.forall_mem_append] at hints
  obtain ⟨hpieceLength, hlength, hlengths, hflag⟩ := hints
  obtain ⟨name, hname, hlen, hdecode⟩ := utf8_storable h.1
  have hfiles : ∀ f ∈ info.files.getD [], ∀ s ∈ f.path, Storable s := fun f hf s hs =>
    h.2 s (List.mem_flatMap.mpr ⟨f, hf, hs⟩)
  obtain ⟨files, hfiles, hflat, hparse⟩ :=
    filesOrNone_storable hfiles fun f hf => hlengths _ (List.mem_map_of_mem hf)
  have hslots := uniqueKeys_infoSlots info name files
  have hunique := uniqueKeys_present hslots
  have hlookup : ∀ key, (sortedItems (canonItems (present (infoSlots info name files)))).lookup key =
      (((infoSlots info name files).lookup key).join).map canon := by
    intro key
    rw [lookup_canon hunique, lookup_present hslots]
  refine ⟨present (infoSlots info name files), ?_, ?_, ?_⟩
  · simp [infoToBencode, hname, hfiles, bind, Except.bind]
  · apply Flat.present hslots
    · have hsizes : ∀ key ∈ (infoSlots info name files).map Prod.fst, key.length < 2 ^ 63 := by
        rw [keys_infoSlots]
        decide
      exact List.forall_mem_map.mp hsizes
    · simp only [infoSlots, List.forall_mem_cons, Option.mem_def, Option.some.injEq, forall_eq',
        List.not_mem_nil, false_implies, implies_true, and_true]
      refine ⟨(Flat.bytes hlen).mono (by omega), (Flat.int hpieceLength).mono (by omega),
        (Flat.bytes hpieces).mono (by omega), ?_, hflat, ?_⟩
      · intro v hv
        obtain ⟨length, hsome, rfl⟩ := Option.map_eq_some_iff.mp hv
        exact (Flat.int (hlength length (Option.mem_toList.mpr hsome))).mono (by omega)
      · intro v hv
        split at hv
        · next hprivate =>
          obtain rfl := Option.some.inj hv
          rw [if_pos hprivate, List.forall_mem_singleton] at hflag
          exact (Flat.int hflag).mono (by omega)
        · cases hv
  · have hentries : InfoEntries
        (sortedItems (canonItems (present (infoSlots info name files)))) info name := by
      constructor
      · exact hlookup keyName
      · exact hlookup keyPieceLength
      · exact hlookup keyPieces
      · have hslot : ((infoSlots info name files).lookup keyLength).join = info.length.map .int :=
          rfl
        rw [hlookup keyLength, hslot]
        cases info.length <;> rfl
      · have hslot : ((infoSlots info name files).lookup keyPrivate).join =
            if info.isPrivate then some (.int 1) else none := rfl
        rw [hlookup keyPrivate, hslot]
        split <;> rfl
    exact hentries.parseInfo hdecode (hparse _ (hlookup keyFiles)) hcontent

theorem keys_topSlots (m : TorrentMeta) (info : Dict)
    (announce announceList comment createdBy : Option BencodeValue) :
    (topSlots m info announce announceList comment createdBy).map Prod.fst =
      [keyInfo, keyAnnounce, keyAnnounceList, keyCreationDate, keyComment, keyCreatedBy] := rfl

/-- The serialized torrent has few levels, its `info` entry is what the parser reads the info from,
and its other entries give the other fields. -/
theorem metaToBencode_storable {m : TorrentMeta} (h : ∀ s ∈ metaStrings m, Storable s)
    (hpieces : m.info.piecesRaw.length < 2 ^ 63)
    (hcontent : m.info.length ≠ none ∨ m.info.files ≠ none)
    (hdate : ∀ date ∈ m.creationDate, WithinLimit maxDigits (digitCount date)) :
    ∃ top d, metaToBencode m = .ok top ∧ infoToBencode m.info = .ok d ∧ Flat 0 5 (.dict d) ∧
      (Flat maxDigits 5 (.dict d) → Flat maxDigits 6 (.dict top)) ∧
      parseInfo (sortedItems (canonItems d)) = .ok m.info ∧
      (sortedItems (canonItems top)).lookup keyInfo =
        some (.dict (sortedItems (canonItems d))) ∧
      ∀ infoHash, parseTop infoHash m.info (sortedItems (canonItems top)) =
        .ok { m with infoHash := infoHash } := by
  simp only [metaStrings, List.forall_mem_append] at h
  obtain ⟨hinfo, hannounce, htiers, hcomment, hcreatedBy⟩ := h
  obtain ⟨d, hd, hdflat, hdparse⟩ :=
    infoToBencode_storable hinfo (fun _ _ => Or.inl rfl) hpieces hcontent
  obtain ⟨announce, ha, haflat, haparse⟩ := utf8OrNone_storable hannounce
  obtain ⟨tiers, ht, htflat, htparse⟩ := tiersOrNone_storable htiers
  obtain ⟨comment, hc, hcflat, hcparse⟩ := utf8OrNone_storable hcomment
  obtain ⟨createdBy, hb, hbflat, hbparse⟩ := utf8OrNone_storable hcreatedBy
  have hslots : UniqueKeys (topSlots m d announce tiers comment createdBy) := by
    rw [UniqueKeys, keys_topSlots]
    decide
  have hunique := uniqueKeys_present hslots
  have hlookup : ∀ key,
      (sortedItems (canonItems (present (topSlots m d announce tiers comment createdBy)))).lookup
        key = (((topSlots m d announce tiers comment createdBy).lookup key).join).map canon := by
    intro key
    rw [lookup_canon hunique, lookup_present hslots]
  refine ⟨_, d, ?_, hd, hdflat, ?_, hdparse, hlookup keyInfo, ?_⟩
  · simp only [metaToBencode, hd, ha, ht, hc, hb, bind, Except.bind]
  · intro hinfo
    apply Flat.present hslots
    · have hsizes : ∀ key ∈ (topSlots m d announce tiers comment createdBy).map Prod.fst,
          key.length < 2 ^ 63 := by
        rw [keys_topSlots]
        decide
      exact List.forall_mem_map.mp hsizes
    · simp only [topSlots, List.forall_mem_cons, Option.mem_def, Option.some.injEq, forall_eq',
        List.not_mem_nil, false_implies, implies_true, and_true]
      refine ⟨hinfo, ?_, ?_, ?_, ?_, ?_⟩
      · intro v hv
        exact (haflat v hv).mono (by omega)
      · intro v hv
        exact (htflat v hv).mono (by omega)
      · intro v hv
        obtain ⟨date, hsome, rfl⟩ := Option.map_eq_some_iff.mp hv
        exact (Flat.int (hdate date hsome)).mono (by omega)
      · intro v hv
        exact (hcflat v hv).mono (by omega)
      · intro v hv
        exact (hbflat v hv).mono (by omega)
  · intro infoHash
    have hdate' : intOrNone (sortedItems (canonItems
        (present (topSlots m d announce tiers comment createdBy)))) keyCreationDate =
          .ok m.creationDate := by
      apply intOrNone_map
      have hslot : ((topSlots m d announce tiers comment createdBy).lookup keyCreationDate).join =
          m.creationDate.map .int := rfl
      rw [hlookup keyCreationDate, hslot]
      cases m.creationDate <;> rfl
    exact parseTop_ok rfl rfl (haparse _ keyAnnounce (hlookup keyAnnounce))
      (htparse _ (hlookup keyAnnounceList)) hdate' (hcparse _ keyComment (hlookup keyComment))
      (hbparse _ keyCreatedBy (hlookup keyCreatedBy))

/-- A torrent is read back with the hash of its own info dictionary. -/
theorem parse_torrentToBytes (sha1 : Bytes → Bytes) (hlim : maxDigits = 0 ∨ 640 ≤ maxDigits)
    {depth : ℕ} (hdepth : 6 ≤ depth) {m : TorrentMeta} (h : ∀ s ∈ metaStrings m, Storable s)
    (hpieces : m.info.piecesRaw.length < 2 ^ 63)
    (hcontent : m.info.length ≠ none ∨ m.info.files ≠ none)
    (hdate : ∀ date ∈ m.creationDate, WithinLimit maxDigits (digitCount date)) {d : Dict}
    {encoded : Bytes} (hd : infoToBencode m.info = .ok d)
    (hencoded : encode maxDigits (.dict d) = .ok encoded) :
    ∃ data, torrentToBytes maxDigits m = .ok data ∧
      parseTorrentBytes sha1 maxDigits depth data = .ok { m with infoHash := sha1 encoded } := by
  obtain ⟨top, d', htop, hd', hdflat, htopflat, hdparse, hlookup, htopparse⟩ :=
    metaToBencode_storable h hpieces hcontent hdate
  obtain rfl : d' = d := Except.ok.inj (hd'.symm.trans hd)
  have hdenc := encodable_of_encode hencoded hdflat.encodable
  have hflat := htopflat ⟨hdenc, hdflat.nesting⟩
  obtain ⟨data, hdata, -⟩ :=
    encodeAny_prints hlim hflat.encodable (hflat.nesting.trans hdepth)
  obtain ⟨hdecode, -⟩ := decode_encode hlim hflat.encodable (hflat.nesting.trans hdepth) hdata
  obtain ⟨-, hcanon⟩ := decode_encode hlim hdenc hdflat.nesting hencoded
  rw [canon] at hdecode hcanon
  refine ⟨data, ?_, ?_⟩
  · have hencode : encode maxDigits (.dict top) = .ok data := hdata
    simp [torrentToBytes, htop, hencode, bind, Except.bind]
  · simp only [parseTorrentBytes, hdecode, ofCodec, requireDict, hlookup, hcanon, hdparse, bind,
      Except.bind]
    exact htopparse _

/-- Serializing and parsing gives a torrent back whose hash is that of its info dictionary. -/
theorem metadata_round_trip (sha1 : Bytes → Bytes) (hlim : maxDigits = 0 ∨ 640 ≤ maxDigits)
    {depth : ℕ} (hdepth : 6 ≤ depth) {m : TorrentMeta} (h : ∀ s ∈ metaStrings m, Storable s)
    (hpieces : m.info.piecesRaw.length < 2 ^ 63)
    (hcontent : m.info.length ≠ none ∨ m.info.files ≠ none)
    (hhash : ∃ d encoded, infoToBencode m.info = .ok d ∧
      encode maxDigits (.dict d) = .ok encoded ∧ m.infoHash = sha1 encoded)
    (hdate : ∀ date ∈ m.creationDate, WithinLimit maxDigits (digitCount date)) :
    ∃ data, torrentToBytes maxDigits m = .ok data ∧
      parseTorrentBytes sha1 maxDigits depth data = .ok m := by
  obtain ⟨d, encoded, hd, hencoded, hinfoHash⟩ := hhash
  obtain ⟨data, hdata, hparse⟩ :=
    parse_torrentToBytes sha1 hlim hdepth h hpieces hcontent hdate hd hencoded
  refine ⟨data, hdata, ?_⟩
  rwa [← hinfoHash] at hparse

theorem storable_ascii {c : ℕ} (h : c < 0x80) : Storable [c] := by
  refine ⟨[UInt8.ofNat c], ?_, ?_⟩
  · rw [encodeUtf8, encodePoint_one h]
    rfl
  · rw [List.length_singleton]
    decide

def someInfo : TorrentInfo :=
  { name := [97], pieceLength := 16384, piecesRaw := [], length := some 0,
    files := some [⟨[[98]], 0⟩, ⟨[], 0⟩], isPrivate := true }

def someInfoDict : Dict :=
  [(keyName, .bytes [97]), (keyPieceLength, .int 16384), (keyPieces, .bytes []), (keyLength, .int 0),
    (keyFiles, .list [.dict [(keyLength, .int 0), (keyPath, .list [.bytes [98]])],
      .dict [(keyLength, .int 0), (keyPath, .list [])]]), (keyPrivate, .int 1)]

/-- Empty strings, tiers and paths, and both a length and files. -/
def someMeta (infoHash : Bytes) : TorrentMeta :=
  ⟨someInfo, infoHash, none, some [[], [[99]]], some 0, some [], some [100]⟩

theorem metadata_round_trip_some : ∃ infoHash data,
    torrentToBytes 4300 (someMeta infoHash) = .ok data ∧
      parseTorrentBytes Sha1.sha1 4300 1000 data = .ok (someMeta infoHash) := by
  obtain ⟨encoded, hencoded⟩ : ∃ encoded, encode 4300 (.dict someInfoDict) = .ok encoded := ⟨_, rfl⟩
  have hnil : Storable [] := ⟨[], rfl, by decide⟩
  have hstrings : ∀ s ∈ metaStrings (someMeta (Sha1.sha1 encoded)), Storable s := by
    simp [metaStrings, infoStrings, someMeta, someInfo, hnil, storable_ascii]
  have hdate : ∀ date ∈ (someMeta (Sha1.sha1 encoded)).creationDate,
      WithinLimit 4300 (digitCount date) := by
    rintro date ⟨⟩
    decide
  obtain ⟨data, hdata, hparse⟩ := metadata_round_trip Sha1.sha1 (Or.inr (by decide))
    (by decide : 6 ≤ 1000) hstrings (by simp [someMeta, someInfo]) (Or.inl (by simp [someMeta, someInfo]))
    ⟨someInfoDict, encoded, rfl, hencoded, rfl⟩ hdate
  exact ⟨_, data, hdata, hparse⟩

def dated (infoHash : Bytes) (date : ℤ) : TorrentMeta :=
  ⟨{ name := [97], pieceLength := 16384, piecesRaw := [], length := some 0, files := none,
      isPrivate := false }, infoHash, none, none, some date, none, none⟩

def datedInfo : Dict :=
  [(keyName, .bytes [97]), (keyPieceLength, .int 16384), (keyPieces, .bytes []), (keyLength, .int 0)]

theorem dated_not_serialized {infoHash data : Bytes} {date : ℤ}
    (h : ¬ WithinLimit maxDigits (digitCount date)) :
    torrentToBytes maxDigits (dated infoHash date) ≠ .ok data := by
  intro hdata
  have htop : metaToBencode (dated infoHash date) =
      .ok [(keyInfo, .dict datedInfo), (keyCreationDate, .int date)] := rfl
  cases hencode : encode maxDigits
      (.dict [(keyInfo, .dict datedInfo), (keyCreationDate, .int date)]) with
  | error e => simp [torrentToBytes, htop, hencode, bind, Except.bind] at hdata
  | ok encoded =>
    have hsizes : Encodable 0 (.dict [(keyInfo, .dict datedInfo), (keyCreationDate, .int date)]) := by
      simp [BencodeRoundTrip.Encodable, EncodableItems, UniqueKeys, datedInfo, WithinLimit, keyInfo,
        keyCreationDate, keyName, keyPieceLength, keyPieces, keyLength]
    obtain ⟨-, -, -, hdate⟩ := encodable_of_encode hencode hsizes
    exact h hdate.2.1

theorem long_date_not_serialized : ∃ encoded,
    (∀ s ∈ metaStrings (dated (Sha1.sha1 encoded) (10 ^ 4300)), Storable s) ∧
      infoToBencode (dated (Sha1.sha1 encoded) (10 ^ 4300)).info = .ok datedInfo ∧
      encode 4300 (.dict datedInfo) = .ok encoded ∧
      ¬ ∃ data, torrentToBytes 4300 (dated (Sha1.sha1 encoded) (10 ^ 4300)) = .ok data := by
  have hlong : ¬ WithinLimit 4300 (digitCount (10 ^ 4300)) := by
    rintro (hzero | hle)
    · cases hzero
    · exact absurd hle (Nat.not_le.mpr (digitCount_pow 4300))
  generalize (10 : ℤ) ^ 4300 = date at hlong ⊢
  obtain ⟨encoded, hencoded⟩ : ∃ encoded, encode 4300 (.dict datedInfo) = .ok encoded := ⟨_, rfl⟩
  refine ⟨encoded, ?_, rfl, hencoded, ?_⟩
  · simp [metaStrings, infoStrings, dated, storable_ascii]
  · rintro ⟨data, hdata⟩
    exact dated_not_serialized hlong hdata

end TorrentSerialization
