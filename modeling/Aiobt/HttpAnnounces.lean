import Aiobt.QueryStrings
import Aiobt.StrictUtf8
import Aiobt.TrackerProtocol

/-! # Announce URLs

The URL that `http_announce` requests. -/
namespace HttpAnnounces

open ByteStrings TrackerProtocol QueryStrings
open SurrogateUtf8 (PyStr)
open StrictUtf8 (IsScalar encodeUtf8 encodeUtf8_isSome)
open PyDecimal (intText digitCount WithinLimit)

def nameInfoHash : Bytes := [105, 110, 102, 111, 95, 104, 97, 115, 104]
def namePeerId : Bytes := [112, 101, 101, 114, 95, 105, 100]
def namePort : Bytes := [112, 111, 114, 116]
def nameUploaded : Bytes := [117, 112, 108, 111, 97, 100, 101, 100]
def nameDownloaded : Bytes := [100, 111, 119, 110, 108, 111, 97, 100, 101, 100]
def nameLeft : Bytes := [108, 101, 102, 116]
def nameCompact : Bytes := [99, 111, 109, 112, 97, 99, 116]
def nameNumwant : Bytes := [110, 117, 109, 119, 97, 110, 116]
def nameEvent : Bytes := [101, 118, 101, 110, 116]

/-- `str(value)`; `none` where it is past the limit on digits. -/
def intStr (maxDigits : ℕ) (value : ℤ) : Option Bytes :=
  if WithinLimit maxDigits (digitCount value) then some (intText value) else none

/-- The dict of parameters, a text as the bytes that `quote` encodes it to; `none` where `str` or
the codec raises. -/
def params (maxDigits : ℕ) (request : AnnounceRequest) : Option (List (Bytes × Bytes)) := do
  let port ← intStr maxDigits request.port
  let uploaded ← intStr maxDigits request.uploaded
  let downloaded ← intStr maxDigits request.downloaded
  let left ← intStr maxDigits request.left
  let numwant ← intStr maxDigits request.numwant
  let event ← encodeUtf8 request.event
  some ([(nameInfoHash, request.infoHash), (namePeerId, request.peerId), (namePort, port),
    (nameUploaded, uploaded), (nameDownloaded, downloaded), (nameLeft, left),
    (nameCompact, if request.compact then [49] else [48]), (nameNumwant, numwant)] ++
      if request.event = [] then [] else [(nameEvent, event)])

def requestUrl (maxDigits : ℕ) (url : Url) (request : AnnounceRequest) : Option Url :=
  (params maxDigits request).map fun ps => url ++ 63 :: urlencode ps

def announced (request : AnnounceRequest) : List (PyStr × PyStr) :=
  [(textOf nameInfoHash, textOf request.infoHash), (textOf namePeerId, textOf request.peerId),
    (textOf namePort, textOf (intText request.port)),
    (textOf nameUploaded, textOf (intText request.uploaded)),
    (textOf nameDownloaded, textOf (intText request.downloaded)),
    (textOf nameLeft, textOf (intText request.left)),
    (textOf nameCompact, if request.compact then [49] else [48]),
    (textOf nameNumwant, textOf (intText request.numwant))] ++
      if request.event = [] then []
      else [(textOf nameEvent, textOf ((encodeUtf8 request.event).getD []))]

structure Printable (maxDigits : ℕ) (request : AnnounceRequest) : Prop where
  port : WithinLimit maxDigits (digitCount request.port)
  uploaded : WithinLimit maxDigits (digitCount request.uploaded)
  downloaded : WithinLimit maxDigits (digitCount request.downloaded)
  left : WithinLimit maxDigits (digitCount request.left)
  numwant : WithinLimit maxDigits (digitCount request.numwant)
  event : ∀ c ∈ request.event, IsScalar c

section

variable {maxDigits : ℕ} {request : AnnounceRequest} {url : Url}

theorem intStr_eq_some_iff {value : ℤ} {text : Bytes} :
    intStr maxDigits value = some text ↔
      WithinLimit maxDigits (digitCount value) ∧ text = intText value := by
  rw [intStr]
  split
  · next hlimit => exact ⟨fun h => ⟨hlimit, (Option.some.inj h).symm⟩, fun h => congrArg some h.2.symm⟩
  · next hlimit => exact iff_of_false (fun h => by cases h) fun h => hlimit h.1

def paramList (request : AnnounceRequest) (event : Bytes) : List (Bytes × Bytes) :=
  [(nameInfoHash, request.infoHash), (namePeerId, request.peerId),
    (namePort, intText request.port), (nameUploaded, intText request.uploaded),
    (nameDownloaded, intText request.downloaded), (nameLeft, intText request.left),
    (nameCompact, if request.compact then [49] else [48]),
    (nameNumwant, intText request.numwant)] ++
      if request.event = [] then [] else [(nameEvent, event)]

theorem params_eq_some_iff {ps : List (Bytes × Bytes)} :
    params maxDigits request = some ps ↔ Printable maxDigits request ∧
      ∃ event, encodeUtf8 request.event = some event ∧ ps = paramList request event := by
  simp only [params, Option.bind_eq_bind, Option.bind_eq_some_iff, intStr_eq_some_iff, Option.some.injEq]
  constructor
  · rintro ⟨_, ⟨hport, rfl⟩, _, ⟨huploaded, rfl⟩, _, ⟨hdownloaded, rfl⟩, _, ⟨hleft, rfl⟩, _,
      ⟨hnumwant, rfl⟩, event, hevent, rfl⟩
    have hscalar := encodeUtf8_isSome.mp (Option.isSome_of_eq_some hevent)
    exact ⟨⟨hport, huploaded, hdownloaded, hleft, hnumwant, hscalar⟩, event, hevent, rfl⟩
  · rintro ⟨⟨hport, huploaded, hdownloaded, hleft, hnumwant, -⟩, event, hevent, rfl⟩
    exact ⟨_, ⟨hport, rfl⟩, _, ⟨huploaded, rfl⟩, _, ⟨hdownloaded, rfl⟩, _, ⟨hleft, rfl⟩, _,
      ⟨hnumwant, rfl⟩, event, hevent, rfl⟩

theorem map_paramList {event : Bytes} (h : encodeUtf8 request.event = some event) :
    (paramList request event).map textPair = announced request := by
  rw [paramList, announced, List.map_append, h]
  congr 1
  · cases request.compact <;> rfl
  · split <;> rfl

def Carried (maxDigits : ℕ) (url : Url) (request : AnnounceRequest) : Prop :=
  ∃ full, requestUrl maxDigits url request = some full ∧
    parseQsl (queryOf full) = parseQsl (queryOf url) ++ announced request

theorem requestUrl_eq_some_iff {full : Url} :
    requestUrl maxDigits url request = some full ↔ Printable maxDigits request ∧
      ∃ event, encodeUtf8 request.event = some event ∧
        full = url ++ 63 :: urlencode (paramList request event) := by
  rw [requestUrl, Option.map_eq_some_iff]
  constructor
  · rintro ⟨ps, hps, rfl⟩
    obtain ⟨hprintable, event, hevent, rfl⟩ := params_eq_some_iff.mp hps
    exact ⟨hprintable, event, hevent, rfl⟩
  · rintro ⟨hprintable, event, hevent, rfl⟩
    exact ⟨_, params_eq_some_iff.mpr ⟨hprintable, event, hevent, rfl⟩, rfl⟩

/-- Behind a URL with a query of its own the parameters are not read. -/
theorem not_carried (hfragment : 35 ∉ url) (hquery : 63 ∈ url) : ¬ Carried maxDigits url request := by
  rintro ⟨full, hfull, hparse⟩
  obtain ⟨-, event, hevent, rfl⟩ := requestUrl_eq_some_iff.mp hfull
  rw [queryOf_append hfragment (sharp_not_mem_urlencode _), if_pos hquery,
    ← map_paramList hevent] at hparse
  exact parseQsl_question _ _ _ hparse

/-- The parameters arrive exactly where the URL has no query of its own. -/
theorem carried_iff (hfragment : 35 ∉ url) :
    Carried maxDigits url request ↔ 63 ∉ url ∧ Printable maxDigits request := by
  constructor
  · intro h
    refine ⟨fun hquery => not_carried hfragment hquery h, ?_⟩
    obtain ⟨full, hfull, -⟩ := h
    exact (requestUrl_eq_some_iff.mp hfull).1
  · rintro ⟨hquery, hprintable⟩
    obtain ⟨event, hevent⟩ := Option.isSome_iff_exists.mp (encodeUtf8_isSome.mpr hprintable.event)
    refine ⟨_, requestUrl_eq_some_iff.mpr ⟨hprintable, event, hevent, rfl⟩, ?_⟩
    rw [queryOf_append hfragment (sharp_not_mem_urlencode _), if_neg hquery,
      queryOf_none hfragment hquery, parseQsl_urlencode, map_paramList hevent]
    rfl

end

def plainUrl : Url := [104, 116, 116, 112, 58, 47, 47, 116, 47, 97]

def passkeyUrl : Url := plainUrl ++ [63, 107, 61, 49]

def someRequest : AnnounceRequest where
  infoHash := [38, 61, 37, 43, 0, 255] ++ List.replicate 14 63
  peerId := List.replicate 20 65
  port := 6881
  uploaded := 0
  downloaded := 0
  left := 0
  compact := true
  event := [115, 116, 97, 114, 116, 101, 100]
  numwant := 50
  key := 0

theorem someRequest_printable : Printable 4300 someRequest := by
  refine ⟨?_, ?_, ?_, ?_, ?_, ?_⟩ <;> decide

theorem carried_plain : Carried 4300 plainUrl someRequest :=
  (carried_iff (by decide)).mpr ⟨by decide, someRequest_printable⟩

theorem passkey_not_carried : ¬ Carried 4300 passkeyUrl someRequest :=
  not_carried (by decide) (by decide)

end HttpAnnounces
