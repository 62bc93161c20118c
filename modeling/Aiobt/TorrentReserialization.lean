import Aiobt.TorrentSerialization

/-! # Parsed torrents as bytes

What `to_bytes` makes of a torrent that the parser accepted. -/
namespace TorrentReserialization

open ByteStrings PyDecimal BencodeCodec BencodeGrammar BencodeRoundTrip BencodeDicts SurrogateUtf8
  StrictUtf8 TorrentMetadata TorrentSerialization

variable {maxDigits : ℕ}

def IsUtf8 (data : Bytes) : Prop := ∀ c ∈ decodeUtf8 data, IsScalar c

instance (data : Bytes) : Decidable (IsUtf8 data) :=
  inferInstanceAs (Decidable (∀ c ∈ decodeUtf8 data, IsScalar c))

def bytesOf : Option BencodeValue → List Bytes
  | some (.bytes data) => [data]
  | _ => []

def listOf : Option BencodeValue → List BencodeValue
  | some (.list items) => items
  | _ => []

def dictOf : BencodeValue → Dict
  | .dict items => items
  | _ => []

def bytesIn (items : List BencodeValue) : List Bytes := items.flatMap fun v => bytesOf (some v)

def infoTexts (infoDict : Dict) : List Bytes :=
  bytesOf (infoDict.lookup keyName) ++ (listOf (infoDict.lookup keyFiles)).flatMap fun item =>
    bytesIn (listOf ((dictOf item).lookup keyPath))

def texts (top infoDict : Dict) : List Bytes :=
  infoTexts infoDict ++ (bytesOf (top.lookup keyAnnounce) ++
    ((listOf (top.lookup keyAnnounceList)).flatMap (fun tier => bytesIn (listOf (some tier))) ++
      (bytesOf (top.lookup keyComment) ++ bytesOf (top.lookup keyCreatedBy))))

theorem bytesOrNone_ok {d : Dict} {key : Bytes} {v : Option Bytes}
    (h : bytesOrNone d key = .ok v) : d.lookup key = v.map .bytes := by
  unfold bytesOrNone at h
  cases hlookup : d.lookup key with
  | none =>
    simp only [hlookup] at h
    cases h
    rfl
  | some value =>
    cases value with
    | bytes data =>
      simp only [hlookup] at h
      cases h
      rfl
    | int _ => simp [hlookup] at h
    | list _ => simp [hlookup] at h
    | dict _ => simp [hlookup] at h

theorem intOrNone_ok {d : Dict} {key : Bytes} {v : Option ℤ}
    (h : intOrNone d key = .ok v) : d.lookup key = v.map .int := by
  unfold intOrNone at h
  cases hlookup : d.lookup key with
  | none =>
    simp only [hlookup] at h
    cases h
    rfl
  | some value =>
    cases value with
    | int data =>
      simp only [hlookup] at h
      cases h
      rfl
    | bytes _ => simp [hlookup] at h
    | list _ => simp [hlookup] at h
    | dict _ => simp [hlookup] at h

theorem requireSome_ok {α : Type} {key : Bytes} {v : Option α} {a : α}
    (h : requireSome key v = .ok a) : v = some a := by
  cases v with
  | none => cases h
  | some b => rw [Except.ok.inj h]

theorem requireBytes_ok {d : Dict} {key data : Bytes} (h : requireBytes d key = .ok data) :
    d.lookup key = some (.bytes data) := by
  obtain ⟨v, hv, hsome⟩ := bind_ok h
  rw [bytesOrNone_ok hv, requireSome_ok hsome]
  rfl

theorem requireInt_ok {d : Dict} {key : Bytes} {value : ℤ} (h : requireInt d key = .ok value) :
    d.lookup key = some (.int value) := by
  obtain ⟨v, hv, hsome⟩ := bind_ok h
  rw [intOrNone_ok hv, requireSome_ok hsome]
  rfl

theorem strOrNone_ok {d : Dict} {key : Bytes} {s : Option PyStr} (h : strOrNone d key = .ok s) :
    s.toList = (bytesOf (d.lookup key)).map decodeUtf8 := by
  obtain ⟨raw, hraw, hs⟩ := bind_ok h
  obtain rfl := Except.ok.inj hs
  rw [bytesOrNone_ok hraw]
  cases raw <;> rfl

theorem parsePath_ok {parts : List BencodeValue} {path : List PyStr}
    (h : parsePath parts = .ok path) :
    parts = (bytesIn parts).map .bytes ∧ path = (bytesIn parts).map decodeUtf8 := by
  induction parts generalizing path with
  | nil =>
    obtain rfl := Except.ok.inj h
    exact ⟨rfl, rfl⟩
  | cons part rest ih =>
    cases part with
    | bytes data =>
      obtain ⟨more, hmore, hpath⟩ := bind_ok h
      obtain rfl := Except.ok.inj hpath
      obtain ⟨hrest, rfl⟩ := ih hmore
      constructor
      · exact congrArg (BencodeValue.bytes data :: ·) hrest
      · rfl
    | int _ => cases h
    | list _ => cases h
    | dict _ => cases h

theorem parseTier_ok {urls : List BencodeValue} {tier : List PyStr}
    (h : parseTier urls = .ok tier) : tier = (bytesIn urls).map decodeUtf8 := by
  induction urls generalizing tier with
  | nil =>
    obtain rfl := Except.ok.inj h
    rfl
  | cons url rest ih =>
    cases url with
    | bytes data =>
      obtain ⟨more, hmore, htier⟩ := bind_ok h
      obtain rfl := Except.ok.inj htier
      rw [ih hmore]
      rfl
    | int _ => cases h
    | list _ => cases h
    | dict _ => cases h

theorem parseAnnounceList_ok {raw : List BencodeValue} {tiers : List (List PyStr)}
    (h : parseAnnounceList raw = .ok tiers) :
    tiers.flatten = (raw.flatMap fun tier => bytesIn (listOf (some tier))).map decodeUtf8 := by
  unfold parseAnnounceList at h
  induction raw generalizing tiers with
  | nil =>
    rw [List.mapM_nil] at h
    obtain rfl := Except.ok.inj h
    rfl
  | cons tier rest ih =>
    rw [List.mapM_cons] at h
    obtain ⟨first, hfirst, hrest⟩ := bind_ok h
    obtain ⟨more, hmore, htiers⟩ := bind_ok hrest
    obtain rfl := Except.ok.inj htiers
    rw [List.flatten_cons, ih hmore, List.flatMap_cons, List.map_append]
    cases tier with
    | list urls => rw [parseTier_ok hfirst]; rfl
    | int _ => cases hfirst
    | bytes _ => cases hfirst
    | dict _ => cases hfirst

structure FileShape (item : BencodeValue) (f : FileEntry) : Prop where
  shape : ∃ d parts, item = .dict d ∧ d.lookup keyLength = some (.int f.length) ∧
    d.lookup keyPath = some (.list parts) ∧ parts = (bytesIn parts).map .bytes ∧
    f.path = (bytesIn parts).map decodeUtf8

theorem parseFile_ok {item : BencodeValue} {f : FileEntry} (h : parseFile item = .ok f) :
    FileShape item f := by
  cases item with
  | dict d =>
    obtain ⟨length, hlength, hrest⟩ := bind_ok h
    cases hlookup : d.lookup keyPath with
    | none => simp [hlookup] at hrest
    | some value =>
      cases value with
      | list parts =>
        simp only [hlookup] at hrest
        obtain ⟨path, hpath, hf⟩ := bind_ok hrest
        obtain rfl := Except.ok.inj hf
        obtain ⟨hparts, hdecode⟩ := parsePath_ok hpath
        exact ⟨d, parts, rfl, requireInt_ok hlength, hlookup, hparts, hdecode⟩
      | int _ => simp [hlookup] at hrest
      | bytes _ => simp [hlookup] at hrest
      | dict _ => simp [hlookup] at hrest
  | int _ => cases h
  | bytes _ => cases h
  | list _ => cases h

theorem parseFiles_ok {items : List BencodeValue} {files : List FileEntry}
    (h : parseFiles items = .ok files) : List.Forall₂ FileShape items files := by
  unfold parseFiles at h
  induction items generalizing files with
  | nil =>
    rw [List.mapM_nil] at h
    obtain rfl := Except.ok.inj h
    exact .nil
  | cons item rest ih =>
    rw [List.mapM_cons] at h
    obtain ⟨f, hf, hrest⟩ := bind_ok h
    obtain ⟨more, hmore, hfiles⟩ := bind_ok hrest
    obtain rfl := Except.ok.inj hfiles
    exact .cons (parseFile_ok hf) (ih hmore)

theorem parseRawFiles_ok {d : Dict} {files : Option (List FileEntry)}
    (h : parseRawFiles d = .ok files) :
    (d.lookup keyFiles = none ∧ files = none) ∨ ∃ items fs,
      d.lookup keyFiles = some (.list items) ∧ files = some fs ∧
        List.Forall₂ FileShape items fs := by
  unfold parseRawFiles at h
  cases hlookup : d.lookup keyFiles with
  | none =>
    simp only [hlookup] at h
    exact Or.inl ⟨rfl, (Except.ok.inj h).symm⟩
  | some value =>
    cases value with
    | list items =>
      simp only [hlookup] at h
      obtain ⟨fs, hfs, hfiles⟩ := bind_ok h
      exact Or.inr ⟨items, fs, rfl, (Except.ok.inj hfiles).symm, parseFiles_ok hfs⟩
    | int _ => simp [hlookup] at h
    | bytes _ => simp [hlookup] at h
    | dict _ => simp [hlookup] at h

theorem parseRawFiles_shapes {d : Dict} {files : Option (List FileEntry)}
    (h : parseRawFiles d = .ok files) :
    List.Forall₂ FileShape (listOf (d.lookup keyFiles)) (files.getD []) := by
  rcases parseRawFiles_ok h with ⟨hlookup, hfiles⟩ | ⟨items, fs, hlookup, hfiles, hshape⟩
  · rw [hlookup, hfiles]
    exact .nil
  · rw [hlookup, hfiles]
    exact hshape

structure InfoShape (d : Dict) (info : TorrentInfo) : Prop where
  name : ∃ data, d.lookup keyName = some (.bytes data) ∧ info.name = decodeUtf8 data
  pieceLength : d.lookup keyPieceLength = some (.int info.pieceLength)
  pieces : d.lookup keyPieces = some (.bytes info.piecesRaw)
  length : d.lookup keyLength = info.length.map .int
  files : parseRawFiles d = .ok info.files
  content : info.length ≠ none ∨ info.files ≠ none
  flag : ∃ v : Option ℤ, d.lookup keyPrivate = v.map .int ∧ info.isPrivate = (v == some 1)

theorem parseInfo_ok {d : Dict} {info : TorrentInfo} (h : parseInfo d = .ok info) :
    InfoShape d info := by
  obtain ⟨name, hname, h⟩ := bind_ok h
  obtain ⟨pieceLength, hpieceLength, h⟩ := bind_ok h
  obtain ⟨pieces, hpieces, h⟩ := bind_ok h
  obtain ⟨length, hlength, h⟩ := bind_ok h
  obtain ⟨files, hfiles, h⟩ := bind_ok h
  by_cases hnone : length = none ∧ files = none
  · rw [if_pos hnone] at h
    cases h
  · rw [if_neg hnone] at h
    obtain ⟨flag, hflag, h⟩ := bind_ok h
    obtain rfl := Except.ok.inj h
    refine ⟨⟨name, requireBytes_ok hname, rfl⟩, requireInt_ok hpieceLength, requireBytes_ok hpieces,
      intOrNone_ok hlength, hfiles, ?_, flag, intOrNone_ok hflag, rfl⟩
    by_contra hboth
    rw [not_or, not_not, not_not] at hboth
    exact hnone hboth

theorem InfoShape.strings {d : Dict} {info : TorrentInfo} (h : InfoShape d info) :
    infoStrings info = (infoTexts d).map decodeUtf8 := by
  obtain ⟨data, hname, hdecode⟩ := h.name
  rw [infoStrings, infoTexts, hname, hdecode, bytesOf, List.map_append, List.map_singleton,
    List.singleton_append]
  congr 1
  have hshapes := parseRawFiles_shapes h.files
  generalize listOf (d.lookup keyFiles) = items at hshapes ⊢
  generalize info.files.getD [] = fs at hshapes ⊢
  induction hshapes with
  | nil => rfl
  | cons hitem _ ih =>
    obtain ⟨d, parts, rfl, -, hpath, -, hf⟩ := hitem.shape
    rw [List.flatMap_cons, List.flatMap_cons, List.map_append, ih, dictOf, hpath, listOf, hf]

structure Accepted (sha1 : Bytes → Bytes) (maxDigits depth : ℕ) (data : Bytes) (m : TorrentMeta)
    (top infoDict : Dict) (encoded : Bytes) : Prop where
  decoded : decode maxDigits depth data = .ok (.dict top)
  info : top.lookup keyInfo = some (.dict infoDict)
  encodes : encode maxDigits (.dict infoDict) = .ok encoded
  infoHash : m.infoHash = sha1 encoded
  shape : InfoShape infoDict m.info
  strings : metaStrings m = (texts top infoDict).map decodeUtf8
  creationDate : top.lookup keyCreationDate = m.creationDate.map .int

theorem requireDict_ok {d d' : Dict} {key : Bytes} (h : requireDict d key = .ok d') :
    d.lookup key = some (.dict d') := by
  unfold requireDict at h
  cases hlookup : d.lookup key with
  | none => simp [hlookup] at h
  | some value =>
    cases value with
    | dict items =>
      simp only [hlookup] at h
      rw [Except.ok.inj h]
    | int _ => simp [hlookup] at h
    | bytes _ => simp [hlookup] at h
    | list _ => simp [hlookup] at h

theorem ofCodec_ok {α : Type} {o : Outcome α} {a : α} (h : ofCodec o = .ok a) : o = .ok a := by
  cases o with
  | ok b => rw [Except.ok.inj h]
  | error e => cases h

structure TopShape (infoHash : Bytes) (info : TorrentInfo) (d : Dict) (m : TorrentMeta) : Prop where
  info : m.info = info
  infoHash : m.infoHash = infoHash
  announce : strOrNone d keyAnnounce = .ok m.announce
  tiers : (m.announceList.getD []).flatten =
    ((listOf (d.lookup keyAnnounceList)).flatMap fun tier => bytesIn (listOf (some tier))).map
      decodeUtf8
  creationDate : intOrNone d keyCreationDate = .ok m.creationDate
  comment : strOrNone d keyComment = .ok m.comment
  createdBy : strOrNone d keyCreatedBy = .ok m.createdBy

theorem parseTop_rest {infoHash : Bytes} {info : TorrentInfo} {d : Dict} {m : TorrentMeta}
    {announce : Option PyStr} {tiers : Option (List (List PyStr))}
    (hannounce : strOrNone d keyAnnounce = .ok announce)
    (htiers : (tiers.getD []).flatten = ((listOf (d.lookup keyAnnounceList)).flatMap fun tier =>
      bytesIn (listOf (some tier))).map decodeUtf8)
    (h : (do
      let creationDate ← intOrNone d keyCreationDate
      let comment ← strOrNone d keyComment
      let createdBy ← strOrNone d keyCreatedBy
      .ok { info, infoHash, announce, announceList := tiers, creationDate, comment, createdBy } :
        Parsed TorrentMeta) = .ok m) : TopShape infoHash info d m := by
  obtain ⟨date, hdate, h⟩ := bind_ok h
  obtain ⟨comment, hcomment, h⟩ := bind_ok h
  obtain ⟨createdBy, hcreatedBy, h⟩ := bind_ok h
  obtain rfl := Except.ok.inj h
  exact ⟨rfl, rfl, hannounce, htiers, hdate, hcomment, hcreatedBy⟩

theorem listOf_of_not_list {v : Option BencodeValue} (h : ∀ items, v ≠ some (.list items)) :
    listOf v = [] := by
  unfold listOf
  split
  · next items => exact absurd rfl (h items)
  · rfl

theorem parseTop_shape {infoHash : Bytes} {info : TorrentInfo} {d : Dict} {m : TorrentMeta}
    (h : parseTop infoHash info d = .ok m) : TopShape infoHash info d m := by
  obtain ⟨announce, hannounce, h⟩ := bind_ok h
  -- whatever is not a list gives no tiers, and the parser leaves them out
  have hother (hne : ∀ raw, d.lookup keyAnnounceList ≠ some (.list raw)) :
      ((none : Option (List (List PyStr))).getD []).flatten =
        ((listOf (d.lookup keyAnnounceList)).flatMap fun tier => bytesIn (listOf (some tier))).map
          decodeUtf8 := by
    rw [listOf_of_not_list hne]
    rfl
  cases hlookup : d.lookup keyAnnounceList with
  | none =>
    simp only [hlookup] at h
    exact parseTop_rest hannounce (hother (by simp [hlookup])) h
  | some value =>
    cases value with
    | list raw =>
      simp only [hlookup] at h
      obtain ⟨tiers, htiers, h⟩ := bind_ok h
      apply parseTop_rest hannounce _ h
      rw [hlookup]
      exact parseAnnounceList_ok htiers
    | int _ =>
      simp only [hlookup] at h
      exact parseTop_rest hannounce (hother (by simp [hlookup])) h
    | bytes _ =>
      simp only [hlookup] at h
      exact parseTop_rest hannounce (hother (by simp [hlookup])) h
    | dict _ =>
      simp only [hlookup] at h
      exact parseTop_rest hannounce (hother (by simp [hlookup])) h

theorem parseTorrentBytes_accepted {sha1 : Bytes → Bytes} {depth : ℕ} {data : Bytes}
    {m : TorrentMeta} (h : parseTorrentBytes sha1 maxDigits depth data = .ok m) :
    ∃ top infoDict encoded, Accepted sha1 maxDigits depth data m top infoDict encoded := by
  obtain ⟨v, hv, h⟩ := bind_ok h
  cases v with
  | dict top =>
    obtain ⟨infoDict, hinfo, h⟩ := bind_ok h
    obtain ⟨encoded, hencoded, h⟩ := bind_ok h
    obtain ⟨info, hparse, h⟩ := bind_ok h
    obtain ⟨rfl, hhash, hannounce, htiers, hdate, hcomment, hcreatedBy⟩ := parseTop_shape h
    have hshape := parseInfo_ok hparse
    refine ⟨top, infoDict, encoded, ofCodec_ok hv, requireDict_ok hinfo, ofCodec_ok hencoded, hhash,
      hshape, ?_, intOrNone_ok hdate⟩
    simp only [metaStrings, texts, List.map_append, hshape.strings, strOrNone_ok hannounce, htiers,
      strOrNone_ok hcomment, strOrNone_ok hcreatedBy]
  | int _ => cases h
  | bytes _ => cases h
  | list _ => cases h

theorem utf8List_encodable {ss : List PyStr} {vs : List BencodeValue} (h : utf8List ss = .ok vs) :
    ∀ s ∈ ss, (encodeUtf8 s).isSome := by
  induction ss generalizing vs with
  | nil => simp
  | cons s rest ih =>
    obtain ⟨data, hdata, h⟩ := bind_ok h
    obtain ⟨more, hmore, -⟩ := bind_ok h
    rw [List.forall_mem_cons, utf8_ok hdata]
    exact ⟨rfl, ih hmore⟩

theorem filesToBencode_encodable {files : List FileEntry} {vs : List BencodeValue}
    (h : filesToBencode files = .ok vs) : ∀ f ∈ files, ∀ s ∈ f.path, (encodeUtf8 s).isSome := by
  induction files generalizing vs with
  | nil => simp
  | cons f rest ih =>
    obtain ⟨path, hpath, h⟩ := bind_ok h
    obtain ⟨more, hmore, -⟩ := bind_ok h
    rw [List.forall_mem_cons]
    exact ⟨utf8List_encodable hpath, ih hmore⟩

theorem tiersToBencode_encodable {tiers : List (List PyStr)} {vs : List BencodeValue}
    (h : tiersToBencode tiers = .ok vs) : ∀ s ∈ tiers.flatten, (encodeUtf8 s).isSome := by
  induction tiers generalizing vs with
  | nil => simp
  | cons tier rest ih =>
    obtain ⟨urls, hurls, h⟩ := bind_ok h
    obtain ⟨more, hmore, -⟩ := bind_ok h
    rw [List.flatten_cons, List.forall_mem_append]
    exact ⟨utf8List_encodable hurls, ih hmore⟩

theorem utf8OrNone_encodable {s : Option PyStr} {v : Option BencodeValue}
    (h : utf8OrNone s = .ok v) : ∀ x ∈ s.toList, (encodeUtf8 x).isSome := by
  cases s with
  | none => simp
  | some s =>
    obtain ⟨data, hdata, -⟩ := bind_ok h
    simp [utf8_ok hdata]

theorem infoToBencode_ok {info : TorrentInfo} {d : Dict} (h : infoToBencode info = .ok d) :
    ∃ name files, utf8 info.name = .ok name ∧ filesOrNone info.files = .ok files ∧
      d = present (infoSlots info name files) := by
  obtain ⟨name, hname, h⟩ := bind_ok h
  obtain ⟨files, hfiles, h⟩ := bind_ok h
  exact ⟨name, files, hname, hfiles, (Except.ok.inj h).symm⟩

theorem infoToBencode_encodable {info : TorrentInfo} {d : Dict} (h : infoToBencode info = .ok d) :
    ∀ s ∈ infoStrings info, (encodeUtf8 s).isSome := by
  obtain ⟨name, files, hname, hfiles, -⟩ := infoToBencode_ok h
  rw [infoStrings, List.forall_mem_cons, utf8_ok hname]
  refine ⟨rfl, ?_⟩
  cases hsome : info.files with
  | none => simp
  | some fs =>
    rw [hsome] at hfiles
    obtain ⟨vs, hvs, -⟩ := bind_ok hfiles
    intro s hs
    obtain ⟨f, hf, hpath⟩ := List.mem_flatMap.mp hs
    exact filesToBencode_encodable hvs f hf s hpath

/-- Only strings that strict UTF-8 can say are serialized. -/
theorem metaToBencode_encodable {m : TorrentMeta} {top : Dict} (h : metaToBencode m = .ok top) :
    ∀ s ∈ metaStrings m, (encodeUtf8 s).isSome := by
  obtain ⟨d, hd, h⟩ := bind_ok h
  obtain ⟨announce, hannounce, h⟩ := bind_ok h
  obtain ⟨tiers, htiers, h⟩ := bind_ok h
  obtain ⟨comment, hcomment, h⟩ := bind_ok h
  obtain ⟨createdBy, hcreatedBy, -⟩ := bind_ok h
  simp only [metaStrings, List.forall_mem_append]
  refine ⟨infoToBencode_encodable hd, utf8OrNone_encodable hannounce, ?_,
    utf8OrNone_encodable hcomment, utf8OrNone_encodable hcreatedBy⟩
  cases hsome : m.announceList with
  | none => simp
  | some al =>
    rw [hsome] at htiers
    obtain ⟨vs, hvs, -⟩ := bind_ok htiers
    exact tiersToBencode_encodable hvs

theorem utf8_decodeUtf8 {data data' : Bytes} (h : utf8 (decodeUtf8 data) = .ok data') :
    data' = data := by
  have hsome := utf8_ok h
  have hscalar : ∀ c ∈ decodeUtf8 data, IsScalar c := by
    rw [← encodeUtf8_isSome, hsome]
    rfl
  rw [encodeUtf8_decodeUtf8 hscalar] at hsome
  exact (Option.some.inj hsome).symm

theorem utf8List_decodeUtf8 {datas : List Bytes} {vs : List BencodeValue}
    (h : utf8List (datas.map decodeUtf8) = .ok vs) : vs = datas.map .bytes := by
  induction datas generalizing vs with
  | nil => exact (Except.ok.inj h).symm
  | cons data rest ih =>
    obtain ⟨data', hdata, h⟩ := bind_ok h
    obtain ⟨more, hmore, h⟩ := bind_ok h
    rw [← Except.ok.inj h, utf8_decodeUtf8 hdata, ih hmore]
    rfl

theorem canonList_bytes (datas : List Bytes) :
    canonList (datas.map BencodeValue.bytes) = datas.map .bytes := by
  induction datas with
  | nil => rfl
  | cons data rest ih => rw [List.map_cons, canonList, ih, canon]

theorem canon_of_mem_list {items : List BencodeValue} (h : canon (.list items) = .list items)
    {v : BencodeValue} (hv : v ∈ items) : canon v = v := by
  have hitems : items.map canon = items := by
    rw [← canonList_eq_map]
    exact BencodeValue.list.inj h
  exact List.map_inj_left.mp (hitems.trans (List.map_id items).symm) v hv

theorem canon_of_mem_items {items : Dict} (h : canon (.dict items) = .dict items)
    {e : Bytes × BencodeValue} (he : e ∈ items) : canon e.2 = e.2 := by
  have hitems : sortedItems (canonItems items) = items := BencodeValue.dict.inj h
  rw [← hitems, (sortedItems_perm _).mem_iff, canonItems_eq_map] at he
  obtain ⟨u, -, rfl⟩ := List.mem_map.mp he
  exact canon_canon u.2

theorem ascending_of_canon {items : Dict} (h : canon (.dict items) = .dict items)
    (henc : Encodable maxDigits (.dict items)) : Ascending items := by
  have hitems : sortedItems (canonItems items) = items := BencodeValue.dict.inj h
  rw [← hitems]
  apply sortedItems_ascending
  rw [UniqueKeys, canonItems_keys]
  exact henc.1

/-- What the parser needs to see of a dictionary is all that there is in it, when its keys are known
ones. -/
theorem canon_dict_eq_iff {items d : Dict} {keys : List Bytes} (hitems : UniqueKeys items)
    (hkeys : ∀ e ∈ items, e.1 ∈ keys) (hcanon : canon (.dict d) = .dict d)
    (henc : Encodable maxDigits (.dict d)) :
    canon (.dict items) = .dict d ↔ (∀ e ∈ d, e.1 ∈ keys) ∧
      ∀ key ∈ keys, (items.lookup key).map canon = d.lookup key := by
  have hunique : UniqueKeys (canonItems items) := by
    rw [UniqueKeys, canonItems_keys]
    exact hitems
  have hsorted : ∀ e ∈ sortedItems (canonItems items), e.1 ∈ keys := by
    intro e he
    rw [(sortedItems_perm _).mem_iff, canonItems_eq_map] at he
    obtain ⟨u, hu, rfl⟩ := List.mem_map.mp he
    exact hkeys u hu
  rw [canon, BencodeValue.dict.injEq, ascending_eq_iff (sortedItems_ascending hunique)
    (ascending_of_canon hcanon henc) hsorted]
  simp only [lookup_canon hitems]

theorem file_canon_iff {f : FileEntry} {d : Dict} {path : List BencodeValue}
    (hshape : FileShape (.dict d) f) (hcanon : canon (.dict d) = .dict d)
    (henc : Encodable maxDigits (.dict d)) (hpath : utf8List f.path = .ok path) :
    canon (.dict [(keyLength, .int f.length), (keyPath, .list path)]) = .dict d ↔
      ∀ e ∈ d, e.1 ∈ [keyLength, keyPath] := by
  obtain ⟨d', parts, heq, hlength, hparts, hbytes, hdecode⟩ := hshape.shape
  obtain rfl := BencodeValue.dict.inj heq
  rw [hdecode] at hpath
  obtain rfl : path = parts := (utf8List_decodeUtf8 hpath).trans hbytes.symm
  have hkeys : ∀ e ∈ [(keyLength, BencodeValue.int f.length), (keyPath, .list path)],
      e.1 ∈ [keyLength, keyPath] := by simp
  rw [canon_dict_eq_iff (uniqueKeys_file f.length path) hkeys hcanon henc]
  have hlist : canon (.list path) = .list path := by
    rw [canon, hbytes, canonList_bytes]
  have hne : (keyPath == keyLength) = false := by decide
  constructor
  · intro h
    exact h.1
  · intro h
    refine ⟨h, ?_⟩
    rw [List.forall_mem_cons, List.forall_mem_singleton, hlength, hparts]
    constructor
    · simp [canon]
    · simp [List.lookup_cons, hne, hlist]

/-- The files of a torrent are reproduced unless their entries have other keys. -/
theorem files_canon_iff {items vs : List BencodeValue} {fs : List FileEntry}
    (hshape : List.Forall₂ FileShape items fs) (hvs : filesToBencode fs = .ok vs)
    (hcanon : ∀ v ∈ items, canon v = v) (henc : ∀ v ∈ items, Encodable maxDigits v) :
    canonList vs = items ↔ ∀ d, .dict d ∈ items → ∀ e ∈ d, e.1 ∈ [keyLength, keyPath] := by
  induction hshape generalizing vs with
  | nil =>
    obtain rfl := Except.ok.inj hvs
    simp [canonList]
  | @cons item f items fs hitem _ ih =>
    obtain ⟨path, hpath, hvs⟩ := bind_ok hvs
    obtain ⟨more, hmore, hvs⟩ := bind_ok hvs
    obtain rfl := Except.ok.inj hvs
    rw [List.forall_mem_cons] at hcanon henc
    obtain ⟨d, -, rfl, -⟩ := hitem.shape
    rw [canonList, List.cons.injEq, file_canon_iff hitem hcanon.1 henc.1 hpath,
      ih hmore hcanon.2 henc.2]
    simp only [List.mem_cons, BencodeValue.dict.injEq, forall_eq_or_imp]

def infoKeys : List Bytes := [keyName, keyPieceLength, keyPieces, keyLength, keyFiles, keyPrivate]

structure OnlyKnown (infoDict : Dict) : Prop where
  keys : ∀ e ∈ infoDict, e.1 ∈ infoKeys
  flag : ∀ v, infoDict.lookup keyPrivate = some v → v = .int 1
  files : ∀ items, infoDict.lookup keyFiles = some (.list items) →
    ∀ d, .dict d ∈ items → ∀ e ∈ d, e.1 ∈ [keyLength, keyPath]

theorem flag_iff {v : Option ℤ} :
    (if v == some 1 then some (BencodeValue.int 1) else none) = v.map .int ↔
      ∀ x, v.map BencodeValue.int = some x → x = .int 1 := by
  cases v with
  | none => simp
  | some z =>
    by_cases hz : z = 1
    · simp [hz]
    · simp [hz]

/-- The info dictionary of a parsed torrent is reproduced unless it says more. -/
theorem info_canon_iff {infoDict d : Dict} {info : TorrentInfo} (hshape : InfoShape infoDict info)
    (hcanon : canon (.dict infoDict) = .dict infoDict)
    (henc : Encodable maxDigits (.dict infoDict)) (hd : infoToBencode info = .ok d) :
    canon (.dict d) = .dict infoDict ↔ OnlyKnown infoDict := by
  obtain ⟨name, files, hname, hfiles, rfl⟩ := infoToBencode_ok hd
  have hslots := uniqueKeys_infoSlots info name files
  have hkeys : ∀ e ∈ present (infoSlots info name files), e.1 ∈ infoKeys := by
    intro e he
    rw [infoKeys, ← keys_infoSlots info name files]
    exact List.mem_map_of_mem (mem_present.mp he)
  rw [canon_dict_eq_iff (uniqueKeys_present hslots) hkeys hcanon henc]
  simp only [lookup_present hslots]
  obtain ⟨data, hdata, hdecode⟩ := hshape.name
  rw [hdecode] at hname
  obtain rfl := utf8_decodeUtf8 hname
  have hsame : ∀ key ∈ [keyName, keyPieceLength, keyPieces, keyLength],
      (((infoSlots info name files).lookup key).join).map canon = infoDict.lookup key := by
    simp only [List.forall_mem_cons, List.not_mem_nil, false_implies, implies_true, and_true]
    refine ⟨hdata.symm, hshape.pieceLength.symm, hshape.pieces.symm, ?_⟩
    have hslot : ((infoSlots info name files).lookup keyLength).join = info.length.map .int := rfl
    rw [hslot, hshape.length]
    cases info.length <;> rfl
  have hflag : (((infoSlots info name files).lookup keyPrivate).join).map canon =
      infoDict.lookup keyPrivate ↔ ∀ v, infoDict.lookup keyPrivate = some v → v = .int 1 := by
    obtain ⟨v, hv, hprivate⟩ := hshape.flag
    have hslot : ((infoSlots info name files).lookup keyPrivate).join =
        if info.isPrivate then some (.int 1) else none := rfl
    have hmap : (if info.isPrivate then some (BencodeValue.int 1) else none).map canon =
        if info.isPrivate then some (BencodeValue.int 1) else none := by
      split <;> rfl
    rw [hslot, hmap, hv, hprivate]
    exact flag_iff
  have hfilesIff : (((infoSlots info name files).lookup keyFiles).join).map canon =
      infoDict.lookup keyFiles ↔ ∀ items, infoDict.lookup keyFiles = some (.list items) →
        ∀ d, .dict d ∈ items → ∀ e ∈ d, e.1 ∈ [keyLength, keyPath] := by
    have hslot : ((infoSlots info name files).lookup keyFiles).join = files := rfl
    rw [hslot]
    rcases parseRawFiles_ok hshape.files with ⟨hlookup, hnone⟩ | ⟨items, fs, hlookup, hsome, hall⟩
    · rw [hnone] at hfiles
      obtain rfl := Except.ok.inj hfiles
      simp [hlookup]
    · rw [hsome] at hfiles
      obtain ⟨vs, hvs, hfiles⟩ := bind_ok hfiles
      obtain rfl := Except.ok.inj hfiles
      have hlist := canon_of_mem_items hcanon (mem_of_lookup hlookup)
      have hlistenc := Encodable.of_mem_items henc.2 (mem_of_lookup hlookup)
      have hiff := files_canon_iff hall hvs (fun v hv => canon_of_mem_list hlist hv)
        (fun v hv => Encodable.of_mem_list hlistenc hv)
      simp only [hlookup, Option.map_some, canon, Option.some.injEq, BencodeValue.list.injEq,
        forall_eq']
      exact hiff
  constructor
  · rintro ⟨hknown, hall⟩
    exact ⟨hknown, hflag.mp (hall keyPrivate (by simp [infoKeys])),
      hfilesIff.mp (hall keyFiles (by simp [infoKeys]))⟩
  · rintro ⟨hknown, hone, hentries⟩
    refine ⟨hknown, ?_⟩
    have hall : ∀ key ∈ [keyName, keyPieceLength, keyPieces, keyLength] ++ [keyFiles, keyPrivate],
        (((infoSlots info name files).lookup key).join).map canon = infoDict.lookup key := by
      rw [List.forall_mem_append]
      refine ⟨hsame, ?_⟩
      rw [List.forall_mem_cons, List.forall_mem_singleton]
      exact ⟨hfilesIff.mpr hentries, hflag.mpr hone⟩
    exact hall

theorem encodable_lookup {d : Dict} {key : Bytes} {v : BencodeValue}
    (h : Encodable maxDigits (.dict d)) (hv : d.lookup key = some v) : Encodable maxDigits v :=
  Encodable.of_mem_items h.2 (mem_of_lookup hv)

theorem encodable_listOf {v : Option BencodeValue} (h : ∀ x ∈ v, Encodable maxDigits x) :
    ∀ x ∈ listOf v, Encodable maxDigits x := by
  unfold listOf
  split
  · next items =>
    intro x hx
    exact Encodable.of_mem_list (h (.list items) rfl) hx
  · simp

theorem length_bytesOf {v : Option BencodeValue} (h : ∀ x ∈ v, Encodable maxDigits x) :
    ∀ b ∈ bytesOf v, b.length < 2 ^ 63 := by
  unfold bytesOf
  split
  · next data =>
    rw [List.forall_mem_singleton]
    exact h (.bytes data) rfl
  · simp

theorem length_bytesIn {items : List BencodeValue} (h : ∀ x ∈ items, Encodable maxDigits x) :
    ∀ b ∈ bytesIn items, b.length < 2 ^ 63 := by
  intro b hb
  obtain ⟨v, hv, hb⟩ := List.mem_flatMap.mp hb
  have hsome : ∀ x ∈ some v, Encodable maxDigits x := by
    rintro x ⟨⟩
    exact h v hv
  exact length_bytesOf hsome b hb

theorem encodable_dictOf {v : BencodeValue} (h : Encodable maxDigits v) (key : Bytes) :
    ∀ x ∈ (dictOf v).lookup key, Encodable maxDigits x := by
  intro x hx
  cases v with
  | dict d => exact encodable_lookup h hx
  | int _ => cases hx
  | bytes _ => cases hx
  | list _ => cases hx

theorem length_texts {top infoDict : Dict} (htop : Encodable maxDigits (.dict top))
    (hinfo : Encodable maxDigits (.dict infoDict)) :
    ∀ b ∈ texts top infoDict, b.length < 2 ^ 63 := by
  have hfield : ∀ {d : Dict} (key : Bytes), Encodable maxDigits (.dict d) →
      ∀ x ∈ d.lookup key, Encodable maxDigits x := fun key hd x hx => encodable_lookup hd hx
  simp only [texts, infoTexts, List.forall_mem_append]
  refine ⟨⟨length_bytesOf (hfield _ hinfo), ?_⟩, length_bytesOf (hfield _ htop), ?_,
    length_bytesOf (hfield _ htop), length_bytesOf (hfield _ htop)⟩
  · intro b hb
    obtain ⟨item, hitem, hb⟩ := List.mem_flatMap.mp hb
    have henc := encodable_listOf (hfield keyFiles hinfo) item hitem
    exact length_bytesIn (encodable_listOf (encodable_dictOf henc keyPath)) b hb
  · intro b hb
    obtain ⟨tier, htier, hb⟩ := List.mem_flatMap.mp hb
    have henc := encodable_listOf (hfield keyAnnounceList htop) tier htier
    have hsome : ∀ x ∈ some tier, Encodable maxDigits x := by
      rintro x ⟨⟩
      exact henc
    exact length_bytesIn (encodable_listOf hsome) b hb

theorem exists_shape {items : List BencodeValue} {fs : List FileEntry} {f : FileEntry}
    (h : List.Forall₂ FileShape items fs) (hf : f ∈ fs) : ∃ item ∈ items, FileShape item f := by
  induction h with
  | nil => cases hf
  | @cons item g items fs hitem _ ih =>
    rcases List.mem_cons.mp hf with rfl | hf
    · exact ⟨item, List.mem_cons_self, hitem⟩
    · obtain ⟨item', hmem, hshape⟩ := ih hf
      exact ⟨item', List.mem_cons_of_mem item hmem, hshape⟩

theorem InfoShape.ints {infoDict : Dict} {info : TorrentInfo} (h : InfoShape infoDict info)
    (henc : Encodable maxDigits (.dict infoDict)) :
    ∀ z ∈ infoInts info, WithinLimit maxDigits (digitCount z) := by
  have hint : ∀ {d : Dict} {key : Bytes} {z : ℤ}, Encodable maxDigits (.dict d) →
      d.lookup key = some (.int z) → WithinLimit maxDigits (digitCount z) := fun hd hz =>
    encodable_lookup hd hz
  simp only [infoInts, List.forall_mem_cons, List.forall_mem_append]
  refine ⟨hint henc h.pieceLength, ?_, ?_, ?_⟩
  · intro z hz
    apply hint henc
    rw [h.length, Option.mem_toList.mp hz]
    rfl
  · intro z hz
    obtain ⟨f, hf, rfl⟩ := List.mem_map.mp hz
    rcases parseRawFiles_ok h.files with ⟨-, hnone⟩ | ⟨items, fs, hlookup, hsome, hall⟩
    · rw [hnone] at hf
      cases hf
    · rw [hsome] at hf
      obtain ⟨item, hitem, hshape⟩ := exists_shape hall hf
      obtain ⟨d, -, rfl, hlength, -⟩ := hshape.shape
      exact hint (Encodable.of_mem_list (encodable_lookup henc hlookup) hitem) hlength
  · intro z hz
    obtain ⟨v, hv, hflag⟩ := h.flag
    split at hz
    · next hprivate =>
      obtain rfl := List.mem_singleton.mp hz
      rw [hflag, beq_iff_eq] at hprivate
      rw [hprivate] at hv
      exact hint henc hv
    · cases hz

/-- `to_bytes` succeeds, and its bytes are parsed as the same torrent, with the same hash. -/
def Reproduced (sha1 : Bytes → Bytes) (maxDigits depth : ℕ) (m : TorrentMeta) : Prop :=
  ∃ data, torrentToBytes maxDigits m = .ok data ∧
    parseTorrentBytes sha1 maxDigits depth data = .ok m

/-- What is parsed as text is UTF-8, and the info dictionary holds only what is parsed. -/
def Reproducible (maxDigits depth : ℕ) (data : Bytes) : Prop :=
  ∃ top infoDict, decode maxDigits depth data = .ok (.dict top) ∧
    top.lookup keyInfo = some (.dict infoDict) ∧ (∀ b ∈ texts top infoDict, IsUtf8 b) ∧
      OnlyKnown infoDict

def HashTellsApart (sha1 : Bytes → Bytes) (maxDigits depth : ℕ) (data : Bytes) (m : TorrentMeta) :
    Prop :=
  ∀ top infoDict d x y, decode maxDigits depth data = .ok (.dict top) →
    top.lookup keyInfo = some (.dict infoDict) → infoToBencode m.info = .ok d →
      encode maxDigits (.dict infoDict) = .ok x → encode maxDigits (.dict d) = .ok y →
        sha1 x = sha1 y → x = y

theorem isUtf8_of_serialized {m : TorrentMeta} {top infoDict : Dict} {data : Bytes}
    (hstrings : metaStrings m = (texts top infoDict).map decodeUtf8)
    (h : torrentToBytes maxDigits m = .ok data) : ∀ b ∈ texts top infoDict, IsUtf8 b := by
  obtain ⟨top', htop, -⟩ := bind_ok h
  intro b hb
  have hmem : decodeUtf8 b ∈ metaStrings m := by
    rw [hstrings]
    exact List.mem_map_of_mem hb
  exact encodeUtf8_isSome.mp (metaToBencode_encodable htop _ hmem)

theorem storable_of_isUtf8 {m : TorrentMeta} {top infoDict : Dict}
    (hstrings : metaStrings m = (texts top infoDict).map decodeUtf8)
    (hlength : ∀ b ∈ texts top infoDict, b.length < 2 ^ 63)
    (h : ∀ b ∈ texts top infoDict, IsUtf8 b) : ∀ s ∈ metaStrings m, Storable s := by
  intro s hs
  rw [hstrings] at hs
  obtain ⟨b, hb, rfl⟩ := List.mem_map.mp hs
  exact ⟨b, encodeUtf8_decodeUtf8 (h b hb), hlength b hb⟩

/-- An info dictionary is printed as the one that was read exactly if its canonical value is that
one. -/
theorem encode_eq_iff (hlim : maxDigits = 0 ∨ 640 ≤ maxDigits) {v v' : BencodeValue} {w w' : Bytes}
    (hv : Encodable maxDigits v) (hv' : Encodable maxDigits v') (hcanon : canon v' = v')
    (hw : encode maxDigits v = .ok w) (hw' : encode maxDigits v' = .ok w') :
    w = w' ↔ canon v = v' := by
  constructor
  · rintro rfl
    rw [← List.append_nil w] at hw'
    rw [(encode_prefix_free hlim hv hv' hw hw').2, hcanon]
  · intro hsame
    obtain ⟨-, hagain⟩ := decode_encode hlim hv le_rfl hw
    rw [hsame] at hagain
    exact Except.ok.inj (hagain.symm.trans hw')

/-- A parsed torrent keeps its identity exactly if its texts are UTF-8 and its info dictionary says
no more than is parsed. -/
theorem reproduced_iff (sha1 : Bytes → Bytes) (hlim : maxDigits = 0 ∨ 640 ≤ maxDigits) {depth : ℕ}
    (hdepth : 6 ≤ depth) {data : Bytes} (hsize : data.length < 2 ^ 63) {m : TorrentMeta}
    (hparse : parseTorrentBytes sha1 maxDigits depth data = .ok m)
    (hsha : HashTellsApart sha1 maxDigits depth data m) :
    Reproduced sha1 maxDigits depth m ↔ Reproducible maxDigits depth data := by
  obtain ⟨top, infoDict, encoded, hacc⟩ := parseTorrentBytes_accepted hparse
  have hdenotes := decode_iff.mp hacc.decoded
  have htop := denotes_encodable hdenotes hsize
  have hinfo := encodable_lookup htop hacc.info
  have hcanon := canon_of_mem_items (denotes_canon hdenotes) (mem_of_lookup hacc.info)
  have hdate : ∀ date ∈ m.creationDate, WithinLimit maxDigits (digitCount date) := by
    intro date hdate
    have hlookup := hacc.creationDate
    rw [Option.mem_def.mp hdate] at hlookup
    exact encodable_lookup htop hlookup
  have hmain : (∀ b ∈ texts top infoDict, IsUtf8 b) →
      (Reproduced sha1 maxDigits depth m ↔ OnlyKnown infoDict) := by
    intro htexts
    have hstorable := storable_of_isUtf8 hacc.strings (length_texts htop hinfo) htexts
    have hpieces : m.info.piecesRaw.length < 2 ^ 63 := encodable_lookup hinfo hacc.shape.pieces
    have hinfoStorable : ∀ s ∈ infoStrings m.info, Storable s := fun s hs =>
      hstorable s (List.mem_append_left _ hs)
    obtain ⟨d, hd, hflat, -⟩ := infoToBencode_storable hinfoStorable (hacc.shape.ints hinfo) hpieces
      hacc.shape.content
    obtain ⟨encoded', hencoded', -⟩ := encodeAny_prints hlim hflat.encodable hflat.nesting
    obtain ⟨data', hdata', hparse'⟩ :=
      parse_torrentToBytes sha1 hlim hdepth hstorable hpieces hacc.shape.content hdate hd hencoded'
    have hencodes : encode maxDigits (.dict d) = .ok encoded' := hencoded'
    have hreproduced : Reproduced sha1 maxDigits depth m ↔ sha1 encoded' = sha1 encoded := by
      constructor
      · rintro ⟨data'', hdata'', hparse''⟩
        obtain rfl : data' = data'' := Except.ok.inj (hdata'.symm.trans hdata'')
        have hsame := Except.ok.inj (hparse'.symm.trans hparse'')
        rw [← hacc.infoHash, ← hsame]
      · intro hsame
        refine ⟨data', hdata', ?_⟩
        rwa [hsame, ← hacc.infoHash] at hparse'
    rw [hreproduced, ← info_canon_iff hacc.shape hcanon hinfo hd,
      ← encode_eq_iff hlim hflat.encodable hinfo hcanon hencodes hacc.encodes]
    constructor
    · intro hsame
      exact (hsha top infoDict d encoded encoded' hacc.decoded hacc.info hd hacc.encodes hencodes
        hsame.symm).symm
    · rintro rfl
      rfl
  constructor
  · intro hrep
    have htexts : ∀ b ∈ texts top infoDict, IsUtf8 b := by
      obtain ⟨data', hdata', -⟩ := hrep
      exact isUtf8_of_serialized hacc.strings hdata'
    exact ⟨top, infoDict, hacc.decoded, hacc.info, htexts, (hmain htexts).mp hrep⟩
  · rintro ⟨top', infoDict', hdecoded, hlookup, htexts, hknown⟩
    obtain rfl : top = top' :=
      BencodeValue.dict.inj (Except.ok.inj (hacc.decoded.symm.trans hdecoded))
    obtain rfl : infoDict = infoDict' :=
      BencodeValue.dict.inj (Option.some.inj (hacc.info.symm.trans hlookup))
    exact (hmain htexts).mpr hknown

/-- A torrent of sorted keys that holds an info dict and nothing else is read back. -/
theorem infoOnly_parsed (sha1 : Bytes → Bytes) (hmax : maxDigits = 0 ∨ 640 ≤ maxDigits) {depth : ℕ}
    {infoDict : Dict} {info : TorrentInfo} {data : Bytes}
    (htop : Encodable maxDigits (.dict [(keyInfo, .dict infoDict)]))
    (hnesting : nesting (.dict [(keyInfo, .dict infoDict)]) ≤ depth)
    (hcanon : canon (.dict [(keyInfo, .dict infoDict)]) = .dict [(keyInfo, .dict infoDict)])
    (hdata : encode maxDigits (.dict [(keyInfo, .dict infoDict)]) = .ok data)
    (hparse : parseInfo infoDict = .ok info) :
    decode maxDigits depth data = .ok (.dict [(keyInfo, .dict infoDict)]) ∧
      ∃ encoded, encode maxDigits (.dict infoDict) = .ok encoded ∧
        parseTorrentBytes sha1 maxDigits depth data =
          .ok ⟨info, sha1 encoded, none, none, none, none, none⟩ := by
  have hdecode := (decode_encode hmax htop hnesting hdata).1
  rw [hcanon] at hdecode
  have hinfo : Encodable maxDigits (.dict infoDict) := htop.2.2.1
  obtain ⟨encoded, hencoded, -⟩ := encodeAny_prints hmax hinfo le_rfl
  have hencode : encode maxDigits (.dict infoDict) = .ok encoded := hencoded
  have hlookup : requireDict [(keyInfo, .dict infoDict)] keyInfo = .ok infoDict := rfl
  refine ⟨hdecode, encoded, hencode, ?_⟩
  simp only [parseTorrentBytes, hdecode, hlookup, hencode, hparse, ofCodec, bind, Except.bind]
  rfl

def namedInfo (name : UInt8) : Dict :=
  [(keyLength, .int 0), (keyName, .bytes [name]), (keyPieceLength, .int 1), (keyPieces, .bytes [])]

def namedTop (name : UInt8) : Dict := [(keyInfo, .dict (namedInfo name))]

def namedTorrent (name : UInt8) : TorrentInfo :=
  ⟨decodeUtf8 [name], 1, [], some 0, none, false⟩

/-- `d4:infod6:lengthi0e4:name1:`, the name, `12:piece lengthi1e6:pieces0:ee`. -/
def namedData (name : UInt8) : Bytes :=
  [100, 52, 58, 105, 110, 102, 111, 100, 54, 58, 108, 101, 110, 103, 116, 104, 105, 48, 101, 52, 58,
    110, 97, 109, 101, 49, 58, name, 49, 50, 58, 112, 105, 101, 99, 101, 32, 108, 101, 110, 103, 116,
    104, 105, 49, 101, 54, 58, 112, 105, 101, 99, 101, 115, 48, 58, 101, 101]

theorem namedTop_encoded (name : UInt8) :
    encode 4300 (.dict (namedTop name)) = .ok (namedData name) := rfl

theorem namedTop_encodable (name : UInt8) : Encodable 4300 (.dict (namedTop name)) := by
  have h0 : WithinLimit 4300 (digitCount 0) := by decide
  have h1 : WithinLimit 4300 (digitCount 1) := by decide
  simp [BencodeRoundTrip.Encodable, EncodableItems, UniqueKeys, namedTop, namedInfo, h0, h1, keyInfo,
    keyName, keyPieceLength, keyPieces, keyLength]

theorem namedData_parsed (sha1 : Bytes → Bytes) (name : UInt8) :
    decode 4300 1000 (namedData name) = .ok (.dict (namedTop name)) ∧
      ∃ encoded, encode 4300 (.dict (namedInfo name)) = .ok encoded ∧
        parseTorrentBytes sha1 4300 1000 (namedData name) =
          .ok ⟨namedTorrent name, sha1 encoded, none, none, none, none, none⟩ := by
  have hnesting : nesting (.dict (namedTop name)) ≤ 1000 := by
    simp [nesting, nestingItems, namedTop, namedInfo]
  exact infoOnly_parsed sha1 (Or.inr (by decide)) (namedTop_encodable name) hnesting rfl
    (namedTop_encoded name) rfl

theorem reproduced_iff_ascii : ∃ m,
    parseTorrentBytes Sha1.sha1 4300 1000 (namedData 97) = .ok m ∧
      Reproduced Sha1.sha1 4300 1000 m := by
  obtain ⟨hdata, encoded, hencoded, hparse⟩ := namedData_parsed Sha1.sha1 97
  have hsame : ∀ d, infoToBencode (namedTorrent 97) = .ok d →
      d = [(keyName, .bytes [97]), (keyPieceLength, .int 1), (keyPieces, .bytes []),
        (keyLength, .int 0)] := fun d hd => (Except.ok.inj hd).symm
  have hsha : HashTellsApart Sha1.sha1 4300 1000 (namedData 97)
      ⟨namedTorrent 97, Sha1.sha1 encoded, none, none, none, none, none⟩ := by
    intro top infoDict d x y hdecode hlookup hd hx hy _
    obtain rfl := hsame d hd
    rw [hdata] at hdecode
    cases hdecode
    cases hlookup
    exact Except.ok.inj (hx.symm.trans hy)
  refine ⟨_, hparse, (reproduced_iff Sha1.sha1 (Or.inr (by decide)) (by decide) (by simp [namedData])
    hparse hsha).mpr ?_⟩
  refine ⟨namedTop 97, namedInfo 97, hdata, rfl, by decide, ?_⟩
  constructor
  · decide
  · intro v hv
    cases hv
  · intro items hitems
    cases hitems

/-- A name that is not UTF-8 is accepted, and cannot be written again. -/
theorem escaped_name_not_reproduced : ∃ m,
    parseTorrentBytes Sha1.sha1 4300 1000 (namedData 0xFF) = .ok m ∧
      ¬ Reproduced Sha1.sha1 4300 1000 m := by
  obtain ⟨-, encoded, -, hparse⟩ := namedData_parsed Sha1.sha1 0xFF
  refine ⟨_, hparse, ?_⟩
  rintro ⟨data', hdata', -⟩
  cases hdata'

end TorrentReserialization
