import Aiobt.BencodeCodec
import Aiobt.SurrogateUtf8
import Aiobt.PosixPaths

/-! # Torrent metadata

The data models and the parser of `torrent.py`. SHA-1 is a parameter. -/
namespace TorrentMetadata

open ByteStrings BencodeCodec SurrogateUtf8

structure FileEntry where
  path : List PyStr
  length : ℤ
  deriving DecidableEq, Repr

def FileEntry.relativePath (entry : FileEntry) : PosixPaths.PurePath :=
  PosixPaths.ofSegments entry.path

structure TorrentInfo where
  name : PyStr
  pieceLength : ℤ
  piecesRaw : Bytes
  length : Option ℤ
  files : Option (List FileEntry)
  isPrivate : Bool
  deriving DecidableEq, Repr

/-- `none` where the property raises `ValueError`. -/
def TorrentInfo.totalLength (info : TorrentInfo) : Option ℤ :=
  match info.length, info.files with
  | some length, _ => some length
  | none, some files => some (files.map fun f => f.length).sum
  | none, none => none

structure TorrentMeta where
  info : TorrentInfo
  infoHash : Bytes
  announce : Option PyStr
  announceList : Option (List (List PyStr))
  creationDate : Option ℤ
  comment : Option PyStr
  createdBy : Option PyStr
  deriving DecidableEq, Repr

inductive TypeName where
  | int | bytes | list | dict
  deriving DecidableEq, Repr

def typeName : BencodeValue → TypeName
  | .int _ => .int
  | .bytes _ => .bytes
  | .list _ => .list
  | .dict _ => .dict

/-- Errors of the codec, then one constructor for each `DecodeError` message of the parser. -/
inductive ParseError where
  | codec (error : PyError)
  | topNotDict (got : TypeName)
  | expectedBytes (key : Bytes) (got : TypeName)
  | expectedInt (key : Bytes) (got : TypeName)
  | expectedDict (key : Bytes) (got : TypeName)
  | missingKey (key : Bytes)
  | fileNotDict (got : TypeName)
  | missingPathList
  | pathNotBytes (got : TypeName)
  | filesNotList
  | neitherLengthNorFiles
  | tierNotList
  | urlNotBytes
  deriving DecidableEq, Repr

abbrev Parsed (α : Type) := Except ParseError α
abbrev Dict := List (Bytes × BencodeValue)

def ofCodec {α : Type} : Outcome α → Parsed α
  | .ok a => .ok a
  | .error e => .error (.codec e)

def bytesOrNone (d : Dict) (key : Bytes) : Parsed (Option Bytes) :=
  match d.lookup key with
  | none => .ok none
  | some (.bytes v) => .ok (some v)
  | some v => .error (.expectedBytes key (typeName v))

def strOrNone (d : Dict) (key : Bytes) : Parsed (Option PyStr) := do
  let raw ← bytesOrNone d key
  .ok (raw.map decodeUtf8)

def intOrNone (d : Dict) (key : Bytes) : Parsed (Option ℤ) :=
  match d.lookup key with
  | none => .ok none
  | some (.int v) => .ok (some v)
  | some v => .error (.expectedInt key (typeName v))

def requireSome {α : Type} (key : Bytes) : Option α → Parsed α
  | none => .error (.missingKey key)
  | some v => .ok v

def requireBytes (d : Dict) (key : Bytes) : Parsed Bytes := do
  let v ← bytesOrNone d key
  requireSome key v

def requireInt (d : Dict) (key : Bytes) : Parsed ℤ := do
  let v ← intOrNone d key
  requireSome key v

def requireDict (d : Dict) (key : Bytes) : Parsed Dict :=
  match d.lookup key with
  | none => .error (.missingKey key)
  | some (.dict v) => .ok v
  | some v => .error (.expectedDict key (typeName v))

def keyLength : Bytes := [108, 101, 110, 103, 116, 104]
def keyPath : Bytes := [112, 97, 116, 104]
def keyInfo : Bytes := [105, 110, 102, 111]
def keyName : Bytes := [110, 97, 109, 101]
def keyPieceLength : Bytes := [112, 105, 101, 99, 101, 32, 108, 101, 110, 103, 116, 104]
def keyPieces : Bytes := [112, 105, 101, 99, 101, 115]
def keyFiles : Bytes := [102, 105, 108, 101, 115]
def keyPrivate : Bytes := [112, 114, 105, 118, 97, 116, 101]
def keyAnnounce : Bytes := [97, 110, 110, 111, 117, 110, 99, 101]
def keyAnnounceList : Bytes := keyAnnounce ++ [45, 108, 105, 115, 116]
def keyCreationDate : Bytes := [99, 114, 101, 97, 116, 105, 111, 110, 32, 100, 97, 116, 101]
def keyComment : Bytes := [99, 111, 109, 109, 101, 110, 116]
def keyCreatedBy : Bytes := [99, 114, 101, 97, 116, 101, 100, 32, 98, 121]

def parsePath : List BencodeValue → Parsed (List PyStr)
  | [] => .ok []
  | .bytes part :: rest => do
    let parts ← parsePath rest
    .ok (decodeUtf8 part :: parts)
  | part :: _ => .error (.pathNotBytes (typeName part))

def parseFile (item : BencodeValue) : Parsed FileEntry :=
  match item with
  | .dict d => do
    let length ← requireInt d keyLength
    match d.lookup keyPath with
    | some (.list rawPath) => do
      let path ← parsePath rawPath
      .ok ⟨path, length⟩
    | _ => .error .missingPathList
  | v => .error (.fileNotDict (typeName v))

def parseFiles (rawFiles : List BencodeValue) : Parsed (List FileEntry) := rawFiles.mapM parseFile

def parseTier : List BencodeValue → Parsed (List PyStr)
  | [] => .ok []
  | .bytes url :: rest => do
    let urls ← parseTier rest
    .ok (decodeUtf8 url :: urls)
  | _ :: _ => .error .urlNotBytes

def parseAnnounceList (raw : List BencodeValue) : Parsed (List (List PyStr)) :=
  raw.mapM fun tier =>
    match tier with
    | .list urls => parseTier urls
    | _ => .error .tierNotList

def parseRawFiles (infoDict : Dict) : Parsed (Option (List FileEntry)) :=
  match infoDict.lookup keyFiles with
  | none => .ok none
  | some (.list rawFiles) => do
    let files ← parseFiles rawFiles
    .ok (some files)
  | some _ => .error .filesNotList

def parseInfo (infoDict : Dict) : Parsed TorrentInfo := do
  let nameRaw ← requireBytes infoDict keyName
  let pieceLength ← requireInt infoDict keyPieceLength
  let piecesRaw ← requireBytes infoDict keyPieces
  let length ← intOrNone infoDict keyLength
  let files ← parseRawFiles infoDict
  if length = none ∧ files = none then .error .neitherLengthNorFiles
  else do
    let privateVal ← intOrNone infoDict keyPrivate
    .ok { name := decodeUtf8 nameRaw, pieceLength, piecesRaw, length, files,
          isPrivate := privateVal == some 1 }

def parseTop (infoHash : Bytes) (info : TorrentInfo) (top : Dict) : Parsed TorrentMeta := do
  let announce ← strOrNone top keyAnnounce
  let announceList ← match top.lookup keyAnnounceList with
    | some (.list raw) => do
      let tiers ← parseAnnounceList raw
      .ok (some tiers)
    | _ => .ok none
  let creationDate ← intOrNone top keyCreationDate
  let comment ← strOrNone top keyComment
  let createdBy ← strOrNone top keyCreatedBy
  .ok { info, infoHash, announce, announceList, creationDate, comment, createdBy }

def parseTorrentBytes (sha1 : Bytes → Bytes) (maxDigits depth : ℕ) (data : Bytes) :
    Parsed TorrentMeta := do
  let top ← ofCodec (decode maxDigits depth data)
  match top with
  | .dict top => do
    let infoDict ← requireDict top keyInfo
    let encoded ← ofCodec (encode maxDigits (.dict infoDict))
    let info ← parseInfo infoDict
    parseTop (sha1 encoded) info top
  | v => .error (.topNotDict (typeName v))

/-- An accepted file has an `info` dictionary whose re-encoding is what was hashed. -/
theorem parseTorrentBytes_ok {sha1 : Bytes → Bytes} {maxDigits depth : ℕ} {data : Bytes}
    {m : TorrentMeta} (h : parseTorrentBytes sha1 maxDigits depth data = .ok m) :
    ∃ top infoDict encoded, decode maxDigits depth data = .ok (.dict top) ∧
      top.lookup keyInfo = some (.dict infoDict) ∧
      encode maxDigits (.dict infoDict) = .ok encoded ∧ m.infoHash = sha1 encoded ∧
      parseInfo infoDict = .ok m.info := by
  unfold parseTorrentBytes at h
  cases hd : decode maxDigits depth data with
  | error e => simp [hd, ofCodec, bind, Except.bind] at h
  | ok v =>
    cases v with
    | dict top =>
      simp only [hd, ofCodec, bind, Except.bind, requireDict] at h
      cases hl : top.lookup keyInfo with
      | none => simp [hl] at h
      | some v =>
        cases v with
        | dict infoDict =>
          simp only [hl] at h
          cases he : encode maxDigits (.dict infoDict) with
          | error e => simp [he] at h
          | ok encoded =>
            simp only [he] at h
            cases hi : parseInfo infoDict with
            | error e => simp [hi] at h
            | ok info =>
              simp only [hi, parseTop, bind, Except.bind] at h
              refine ⟨top, infoDict, encoded, rfl, hl, he, ?_⟩
              repeat' split at h
              all_goals first
                | (simp at h; done)
                | (obtain rfl := Except.ok.inj h; exact ⟨rfl, hi⟩)
        | int _ => simp [hl] at h
        | bytes _ => simp [hl] at h
        | list _ => simp [hl] at h
    | int _ => simp [hd, ofCodec, bind, Except.bind] at h
    | bytes _ => simp [hd, ofCodec, bind, Except.bind] at h
    | list _ => simp [hd, ofCodec, bind, Except.bind] at h

end TorrentMetadata
