import Aiobt.AsciiText
import Aiobt.TorrentStorage

/-! # Local Service Discovery

The messages of `discovery.py`, the batches that are sent and the loop that listens. -/
namespace LocalDiscovery

open ByteStrings AsciiText
open PyDecimal (intText digitCount WithinLimit)
open SurrogateUtf8 (PyStr)
open TorrentStorage (hex hexDigit)

structure LSDAnnounce where
  host : PyStr
  port : ℤ
  infoHash : Bytes
  cookie : PyStr
  deriving DecidableEq, Repr

structure DiscoveredPeer where
  host : PyStr
  port : ℤ
  infoHash : Bytes
  deriving DecidableEq, Repr

inductive Multicast where
  | v4
  | v6
  deriving DecidableEq, Repr

def btSearch : PyStr := [66, 84, 45, 83, 69, 65, 82, 67, 72]

def requestLine : PyStr := btSearch ++ [32, 42, 32, 72, 84, 84, 80, 47, 49, 46, 49]

def headerHost : PyStr := [72, 111, 115, 116]
def headerPort : PyStr := [80, 111, 114, 116]
def headerInfohash : PyStr := [73, 110, 102, 111, 104, 97, 115, 104]
def headerCookie : PyStr := [99, 111, 111, 107, 105, 101]

def header (name value : PyStr) : PyStr := name ++ 58 :: 32 :: value

def lsdPort : PyStr := [58, 54, 55, 55, 49]

def groupHost : Multicast → PyStr
  | .v4 => [50, 51, 57, 46, 49, 57, 50, 46, 49, 53, 50, 46, 49, 52, 51]
  | .v6 => [91, 102, 102, 49, 53, 58, 58, 101, 102, 99, 48, 58, 57, 56, 56, 102, 93]

def portText (listenPort : ℤ) : PyStr := (intText listenPort).map UInt8.toNat

def announceLines (listenPort : ℤ) (infoHashes : List Bytes) (cookie host : PyStr) : List PyStr :=
  [requestLine, header headerHost (host ++ lsdPort), header headerPort (portText listenPort)] ++
    infoHashes.map (fun ih => header headerInfohash (hex ih)) ++ [header headerCookie cookie, [], []]

/-- `none` where a text is not ASCII. -/
def formatAnnounce (listenPort : ℤ) (infoHashes : List Bytes) (cookie host : PyStr) : Option Bytes :=
  encodeAscii ([13, 10].intercalate (announceLines listenPort infoHashes cookie host))

structure Headers where
  port : Option ℤ
  cookie : PyStr
  infoHashes : List Bytes

/-- `none` where the port is no number. -/
def readHeader (maxDigits : ℕ) (hs : Headers) (line : PyStr) : Option Headers :=
  match splitColon line with
  | none => some hs
  | some (key, value) =>
    if lower (strip key) = lower headerPort then
      (intOfText maxDigits (strip value)).map fun port => { hs with port := some port }
    else if lower (strip key) = lower headerInfohash then
      match fromHex (strip value) with
      | some ih => some { hs with infoHashes := hs.infoHashes ++ [ih] }
      | none => some hs
    else if lower (strip key) = lower headerCookie then some { hs with cookie := strip value }
    else some hs

def readHeaders (maxDigits : ℕ) : List PyStr → Headers → Option Headers
  | [], hs => some hs
  | line :: rest, hs =>
    if line.all isSpace then some hs
    else (readHeader maxDigits hs line).bind (readHeaders maxDigits rest)

def parseAnnounce (maxDigits : ℕ) (data : Bytes) (sourceHost : PyStr) : List LSDAnnounce :=
  match splitLines (decodeReplace data) with
  | [] => []
  | first :: rest =>
    if btSearch <+: first then
      match readHeaders maxDigits rest ⟨none, [], []⟩ with
      | none => []
      | some hs =>
        match hs.port, hs.infoHashes with
        | none, _ => []
        | _, [] => []
        | some port, infoHashes =>
          (infoHashes.filter fun ih => ih.length = 20).map fun ih => ⟨sourceHost, port, ih, hs.cookie⟩
    else []

structure Cookie where
  text : PyStr
  length : text.length = 16
  digits : ∀ c ∈ text, (hexValue c).isSome

/-- A `LocalDiscovery` that is running. `announce` takes hashes of 20 bytes only. -/
structure Discovery where
  listenPort : ℤ
  cookie : Cookie
  infoHashes : Finset Bytes
  length : ∀ ih ∈ infoHashes, ih.length = 20
  transports : Multicast → Bool
  peerQueue : List DiscoveredPeer

structure Enumeration (s : Finset Bytes) where
  list : List Bytes
  nodup : list.Nodup
  mem : ∀ ih, ih ∈ list ↔ ih ∈ s

structure Datagram where
  group : Multicast
  data : Bytes

def maxAnnounceBatch : ℕ := 50

def batches (hashList : List Bytes) : List (List Bytes) :=
  (List.range ((hashList.length + maxAnnounceBatch - 1) / maxAnnounceBatch)).map fun i =>
    slice hashList (maxAnnounceBatch * i) (maxAnnounceBatch * i + maxAnnounceBatch)

def openGroups (d : Discovery) : List Multicast := [.v4, .v6].filter d.transports

/-- One batch, to each open group; `none` where formatting raises. -/
def sendBatch (d : Discovery) (batch : List Bytes) : Option (List Datagram) :=
  (openGroups d).mapM fun group =>
    (formatAnnounce d.listenPort batch d.cookie.text (groupHost group)).map fun data => ⟨group, data⟩

def sendAnnounce (d : Discovery) (hashList : List Bytes) : Option (List Datagram) :=
  ((batches hashList).mapM (sendBatch d)).map List.flatten

def hear (d : Discovery) (ann : LSDAnnounce) : Discovery :=
  if ann.cookie = d.cookie.text then d
  else if ann.infoHash ∈ d.infoHashes then
    { d with peerQueue := d.peerQueue ++ [⟨ann.host, ann.port, ann.infoHash⟩] }
  else d

def receive (maxDigits : ℕ) (source : Multicast → PyStr) (d : Discovery) (datagram : Datagram) :
    Discovery :=
  (parseAnnounce maxDigits datagram.data (source datagram.group)).foldl hear d

/-- `_listen_loop` over the datagrams that arrive, each from the source host of its group. -/
def receiveAll (maxDigits : ℕ) (source : Multicast → PyStr) (d : Discovery) (arrivals : List Datagram) :
    Discovery :=
  arrivals.foldl (receive maxDigits source) d

def Plain (text : PyStr) : Prop := ∀ c ∈ text, c < 128 ∧ isSpace c = false

def Inline (line : PyStr) : Prop := ∀ c ∈ line, c < 128 ∧ c ≠ 10 ∧ c ≠ 13

instance (text : PyStr) : Decidable (Plain text) := inferInstanceAs (Decidable (∀ c ∈ text, _))
instance (line : PyStr) : Decidable (Inline line) := inferInstanceAs (Decidable (∀ c ∈ line, _))

theorem Plain.inline {text : PyStr} (h : Plain text) : Inline text := by
  intro c hc
  obtain ⟨hascii, hspace⟩ := h c hc
  refine ⟨hascii, ?_, ?_⟩
  · rintro rfl
    cases hspace
  · rintro rfl
    cases hspace

theorem Plain.strip {text : PyStr} (h : Plain text) : strip (32 :: text) = text := by
  rw [strip_cons_space]
  exact strip_of_no_space fun c hc => (h c hc).2

theorem Inline.append {front rest : PyStr} (hfront : Inline front) (hrest : Inline rest) :
    Inline (front ++ rest) := by
  intro c hc
  rcases List.mem_append.mp hc with hc | hc
  · exact hfront c hc
  · exact hrest c hc

theorem Inline.header {name value : PyStr} (hname : Inline name) (hvalue : Inline value) :
    Inline (header name value) :=
  hname.append (Inline.append (by decide : Inline [58, 32]) hvalue)

theorem plain_hex (b : Bytes) : Plain (hex b) := by
  have hdigit : ∀ n < 16, hexDigit n < 128 ∧ isSpace (hexDigit n) = false := by decide
  intro c hc
  obtain ⟨x, -, hx⟩ := List.mem_flatMap.mp hc
  have hlt := x.toNat_lt
  rcases List.mem_cons.mp hx with rfl | hx
  · exact hdigit _ (by omega)
  · rw [List.mem_singleton.mp hx]
    exact hdigit _ (by omega)

theorem fromHex_hex (b : Bytes) : fromHex (hex b) = some b :=
  fromHex_digits (by decide) b

theorem plain_portText (listenPort : ℤ) : Plain (portText listenPort) := by
  intro c hc
  obtain ⟨b, hb, rfl⟩ := List.mem_map.mp hc
  have hplain := PyDecimal.intText_isPlain hb
  rw [PyDecimal.isPlain, Bool.or_eq_true, beq_iff_eq, PyDecimal.isDigit_iff] at hplain
  rcases hplain with rfl | ⟨hlow, hhigh⟩
  · exact ⟨by decide, rfl⟩
  · simp [isSpace]
    omega

theorem Cookie.plain (cookie : Cookie) : Plain cookie.text := by
  intro c hc
  have hsome := cookie.digits c hc
  unfold hexValue at hsome
  split_ifs at hsome
  · simp [isSpace]
    omega
  · simp [isSpace]
    omega
  · simp [isSpace]
    omega
  · cases hsome

theorem intOfText_portText {maxDigits : ℕ} {listenPort : ℤ}
    (h : WithinLimit maxDigits (digitCount listenPort)) :
    intOfText maxDigits (portText listenPort) = some listenPort := by
  have hbytes : (portText listenPort).map UInt8.ofNat = intText listenPort := by
    rw [portText, List.map_map]
    exact (List.map_congr_left fun _ _ => UInt8.ofNat_toNat).trans (List.map_id _)
  rw [intOfText, encodeAscii_of_ascii fun c hc => (plain_portText listenPort c hc).1, hbytes,
    Option.bind_some]
  exact PyDecimal.pyInt_intText h

section

variable {maxDigits : ℕ} {hs : Headers} {listenPort : ℤ} {infoHashes : List Bytes}
  {cookie host : PyStr}

theorem readHeader_host (value : PyStr) :
    readHeader maxDigits hs (header headerHost value) = some hs := by
  rw [readHeader, header, splitColon_header (by decide)]
  rfl

theorem readHeader_port (h : WithinLimit maxDigits (digitCount listenPort)) :
    readHeader maxDigits hs (header headerPort (portText listenPort)) =
      some { hs with port := some listenPort } := by
  have hkey : lower (strip headerPort) = lower headerPort := rfl
  rw [readHeader, header, splitColon_header (by decide)]
  simp only [hkey, if_pos, (plain_portText listenPort).strip, intOfText_portText h, Option.map_some]

theorem readHeader_infohash (ih : Bytes) :
    readHeader maxDigits hs (header headerInfohash (hex ih)) =
      some { hs with infoHashes := hs.infoHashes ++ [ih] } := by
  have hkey : lower (strip headerInfohash) = lower headerInfohash := rfl
  have hport : lower headerInfohash ≠ lower headerPort := by decide
  rw [readHeader, header, splitColon_header (by decide)]
  simp only [hkey, if_neg hport, if_pos, (plain_hex ih).strip, fromHex_hex]

theorem readHeader_cookie (h : Plain cookie) :
    readHeader maxDigits hs (header headerCookie cookie) = some { hs with cookie := cookie } := by
  have hkey : lower (strip headerCookie) = lower headerCookie := rfl
  have hport : lower headerCookie ≠ lower headerPort := by decide
  have hinfohash : lower headerCookie ≠ lower headerInfohash := by decide
  rw [readHeader, header, splitColon_header (by decide)]
  simp only [hkey, if_neg hport, if_neg hinfohash, if_pos, h.strip]

theorem readHeaders_header {name value : PyStr} {rest : List PyStr} (hname : ¬ name.all isSpace) :
    readHeaders maxDigits (header name value :: rest) hs =
      (readHeader maxDigits hs (header name value)).bind (readHeaders maxDigits rest) := by
  rw [readHeaders, if_neg]
  rw [header, List.all_append, Bool.and_eq_true]
  intro hall
  exact hname hall.1

theorem readHeaders_infohashes (rest : List PyStr) :
    readHeaders maxDigits (infoHashes.map (fun ih => header headerInfohash (hex ih)) ++ rest) hs =
      readHeaders maxDigits rest { hs with infoHashes := hs.infoHashes ++ infoHashes } := by
  induction infoHashes generalizing hs with
  | nil => rw [List.append_nil]; rfl
  | cons ih infoHashes hrest =>
    rw [List.map_cons, List.cons_append, readHeaders_header (by decide), readHeader_infohash,
      Option.bind_some, hrest, List.append_assoc]
    rfl

theorem readHeaders_announce (hport : WithinLimit maxDigits (digitCount listenPort))
    (hcookie : Plain cookie) :
    readHeaders maxDigits ((announceLines listenPort infoHashes cookie host).tail) ⟨none, [], []⟩ =
      some ⟨some listenPort, cookie, infoHashes⟩ := by
  rw [announceLines, List.append_assoc, List.cons_append, List.tail_cons, List.cons_append,
    readHeaders_header (by decide), readHeader_host, Option.bind_some, List.cons_append,
    readHeaders_header (by decide), readHeader_port hport, Option.bind_some, List.nil_append,
    readHeaders_infohashes, readHeaders_header (by decide), readHeader_cookie hcookie]
  rfl

theorem announceLines_inline (hcookie : Plain cookie) (hhost : Inline host) :
    ∀ line ∈ announceLines listenPort infoHashes cookie host, Inline line := by
  intro line hline
  simp only [announceLines, List.cons_append, List.nil_append, List.mem_cons, List.mem_append,
    List.mem_map, List.not_mem_nil, or_false] at hline
  rcases hline with rfl | rfl | rfl | ⟨ih, -, rfl⟩ | rfl | rfl | rfl
  · decide
  · exact Inline.header (by decide) (hhost.append (by decide))
  · exact Inline.header (by decide) (plain_portText listenPort).inline
  · exact Inline.header (by decide) (plain_hex ih).inline
  · exact Inline.header (by decide) hcookie.inline
  · intro c hc
    exact absurd hc List.not_mem_nil
  · intro c hc
    exact absurd hc List.not_mem_nil

theorem parse_of_headers {data : Bytes} {first source : PyStr} {rest : List PyStr}
    (hlines : splitLines (decodeReplace data) = first :: rest) (hfirst : btSearch <+: first)
    (hheaders : readHeaders maxDigits rest ⟨none, [], []⟩ = some ⟨some listenPort, cookie, infoHashes⟩)
    (hlength : ∀ ih ∈ infoHashes, ih.length = 20) :
    parseAnnounce maxDigits data source =
      infoHashes.map fun ih => ⟨source, listenPort, ih, cookie⟩ := by
  simp only [parseAnnounce, hlines, if_pos hfirst, hheaders]
  cases infoHashes with
  | nil => rfl
  | cons ih infoHashes =>
    dsimp only
    rw [List.filter_eq_self.mpr fun ih' hmem => decide_eq_true (hlength ih' hmem)]

def messageBytes (listenPort : ℤ) (infoHashes : List Bytes) (cookie host : PyStr) : Bytes :=
  ([13, 10].intercalate (announceLines listenPort infoHashes cookie host)).map UInt8.ofNat

theorem formatAnnounce_eq (hcookie : Plain cookie) (hhost : Inline host) :
    formatAnnounce listenPort infoHashes cookie host =
      some (messageBytes listenPort infoHashes cookie host) := by
  apply encodeAscii_of_ascii
  intro c hc
  rcases mem_join hc with hsep | ⟨line, hline, hc⟩
  · exact (by decide : ∀ c ∈ [13, 10], c < 128) c hsep
  · exact (announceLines_inline hcookie hhost line hline c hc).1

theorem parse_message (hport : WithinLimit maxDigits (digitCount listenPort)) (hcookie : Plain cookie)
    (hhost : Inline host) (hlength : ∀ ih ∈ infoHashes, ih.length = 20) (source : PyStr) :
    parseAnnounce maxDigits (messageBytes listenPort infoHashes cookie host) source =
      infoHashes.map fun ih => ⟨source, listenPort, ih, cookie⟩ := by
  have hlines : splitLines (decodeReplace (messageBytes listenPort infoHashes cookie host)) =
      requestLine :: (announceLines listenPort infoHashes cookie host).tail := by
    rw [decodeReplace_encodeAscii (formatAnnounce_eq hcookie hhost)]
    refine splitLines_join (List.cons_ne_nil _ _) fun line hline => ⟨fun hc => ?_, fun hc => ?_⟩
    · exact (announceLines_inline hcookie hhost line hline 10 hc).2.1 rfl
    · exact (announceLines_inline hcookie hhost line hline 13 hc).2.2 rfl
  exact parse_of_headers hlines (List.prefix_append _ _) (readHeaders_announce hport hcookie) hlength

end

end LocalDiscovery
