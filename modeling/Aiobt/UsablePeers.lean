import Aiobt.DiscoveredPeers

/-! # Ports of announcements

The peers that `parse_announce` reports, against what the headers of the message say. -/
namespace UsablePeers

open ByteStrings AsciiText LocalDiscovery DiscoveredPeers
open SurrogateUtf8 (PyStr)

def IsSearch (data : Bytes) : Prop := btSearch <+: (splitLines (decodeReplace data)).headD []

instance (data : Bytes) : Decidable (IsSearch data) := inferInstanceAs (Decidable (_ <+: _))

def headerLines (data : Bytes) : List PyStr :=
  (splitLines (decodeReplace data)).tail.takeWhile fun line => !line.all isSpace

def headerValue (name line : PyStr) : Option PyStr :=
  (splitColon line).bind fun (key, value) =>
    if lower (strip key) = lower name then some (strip value) else none

def headerValues (name : PyStr) (lines : List PyStr) : List PyStr :=
  lines.filterMap (headerValue name)

def announcedPort (maxDigits : ℕ) (lines : List PyStr) : Option ℤ :=
  ((headerValues headerPort lines).mapM (intOfText maxDigits)).bind List.getLast?

def announcedCookie (lines : List PyStr) : PyStr :=
  (headerValues headerCookie lines).getLast?.getD []

def readableHashes (lines : List PyStr) : List Bytes :=
  (headerValues headerInfohash lines).filterMap fromHex

def announcedHashes (lines : List PyStr) : List Bytes :=
  (readableHashes lines).filter fun ih => ih.length = 20

def Usable (port : ℤ) : Prop := 1 ≤ port ∧ port ≤ 65535

instance (port : ℤ) : Decidable (Usable port) := inferInstanceAs (Decidable (_ ∧ _))

/-- What the headers say together, after those read before. -/
def collect (maxDigits : ℕ) (lines : List PyStr) (hs : Headers) : Option Headers :=
  ((headerValues headerPort lines).mapM (intOfText maxDigits)).map fun ports =>
    ⟨ports.getLast?.or hs.port, (headerValues headerCookie lines).getLast?.getD hs.cookie,
      hs.infoHashes ++ readableHashes lines⟩

theorem headerValues_cons (name line : PyStr) (lines : List PyStr) :
    headerValues name (line :: lines) =
      (headerValue name line).toList ++ headerValues name lines := by
  rw [headerValues, List.filterMap_cons]
  cases headerValue name line with
  | none => rfl
  | some value => rfl

theorem readableHashes_cons (line : PyStr) (lines : List PyStr) :
    readableHashes (line :: lines) =
      ((headerValue headerInfohash line).bind fromHex).toList ++ readableHashes lines := by
  rw [readableHashes, headerValues_cons, List.filterMap_append]
  cases headerValue headerInfohash line with
  | none => rfl
  | some value =>
    cases hread : fromHex value with
    | none => simp [hread, readableHashes]
    | some ih => simp [hread, readableHashes]

theorem headerValue_of_key {name key value line : PyStr} (hsplit : splitColon line = some (key, value)) :
    headerValue name line = if lower (strip key) = lower name then some (strip value) else none := by
  rw [headerValue, hsplit]
  rfl

theorem collect_nil (maxDigits : ℕ) (hs : Headers) : collect maxDigits [] hs = some hs := by
  simp [collect, headerValues, readableHashes]

theorem collect_cons (maxDigits : ℕ) (line : PyStr) (lines : List PyStr) (hs : Headers) :
    collect maxDigits (line :: lines) hs =
      (readHeader maxDigits hs line).bind (collect maxDigits lines) := by
  have hinfohash : lower headerInfohash ≠ lower headerPort := by decide
  have hcookie : lower headerCookie ≠ lower headerPort := by decide
  have hdifferent : lower headerCookie ≠ lower headerInfohash := by decide
  rw [collect, headerValues_cons, headerValues_cons, readableHashes_cons, readHeader]
  cases hsplit : splitColon line with
  | none =>
    simp [headerValue, hsplit, collect]
  | some header =>
    obtain ⟨key, value⟩ := header
    simp only [headerValue_of_key hsplit]
    by_cases hport : lower (strip key) = lower headerPort
    · simp only [hport, hinfohash.symm, hcookie.symm, if_true, if_false]
      cases hread : intOfText maxDigits (strip value) with
      | none => simp [hread]
      | some port =>
        simp only [Option.toList_some, Option.toList_none, List.nil_append, List.singleton_append,
          List.mapM_cons, hread, Option.map_some, Option.bind_some, collect]
        cases (headerValues headerPort lines).mapM (intOfText maxDigits) with
        | none => rfl
        | some ports => simp [List.getLast?_cons]
    · by_cases hhash : lower (strip key) = lower headerInfohash
      · simp only [hhash, hinfohash, hdifferent.symm, if_true, if_false]
        cases hread : fromHex (strip value) with
        | none => simp [hread, collect]
        | some ih => simp [hread, collect]
      · by_cases hkey : lower (strip key) = lower headerCookie
        · simp only [hkey, hcookie, hdifferent, if_true, if_false]
          simp [collect, List.getLast?_cons]
        · simp [hport, hhash, hkey, collect]

theorem readHeaders_eq (maxDigits : ℕ) (lines : List PyStr) (hs : Headers) :
    readHeaders maxDigits lines hs =
      collect maxDigits (lines.takeWhile fun line => !line.all isSpace) hs := by
  induction lines generalizing hs with
  | nil => exact (collect_nil maxDigits hs).symm
  | cons line lines ih =>
    rw [readHeaders, List.takeWhile_cons]
    cases hblank : line.all isSpace with
    | true => exact (collect_nil maxDigits hs).symm
    | false =>
      simp only [Bool.not_false, if_true, Bool.false_eq_true, if_false]
      rw [collect_cons]
      exact congrArg _ (funext ih)

theorem parseAnnounce_eq (maxDigits : ℕ) (data : Bytes) (source : PyStr) :
    parseAnnounce maxDigits data source =
      if IsSearch data then
        match announcedPort maxDigits (headerLines data) with
        | none => []
        | some port => (announcedHashes (headerLines data)).map fun ih =>
            ⟨source, port, ih, announcedCookie (headerLines data)⟩
      else [] := by
  cases hlines : splitLines (decodeReplace data) with
  | nil =>
    have hno : ¬ IsSearch data := by
      rw [IsSearch, hlines]
      decide
    rw [if_neg hno, parseAnnounce, hlines]
  | cons first rest =>
    have hsearch : IsSearch data ↔ btSearch <+: first := by rw [IsSearch, hlines, List.headD_cons]
    have hheader : headerLines data = rest.takeWhile fun line => !line.all isSpace := by
      rw [headerLines, hlines, List.tail_cons]
    rw [parseAnnounce, hlines]
    dsimp only
    by_cases h : btSearch <+: first
    · rw [if_pos h, if_pos (hsearch.mpr h), readHeaders_eq, ← hheader, collect, announcedPort]
      cases (headerValues headerPort (headerLines data)).mapM (intOfText maxDigits) with
      | none => rfl
      | some ports =>
        simp only [Option.map_some, Option.bind_some, Option.or_none, List.nil_append]
        cases ports.getLast? with
        | none => rfl
        | some port =>
          rw [announcedHashes]
          cases readableHashes (headerLines data) with
          | nil => rfl
          | cons ih hashes => rfl
    · rw [if_neg h, if_neg fun hs => h (hsearch.mp hs)]

section

variable {maxDigits : ℕ} {data : Bytes} {port : ℤ}

theorem parse_of_port (source : PyStr) (hsearch : IsSearch data)
    (hport : announcedPort maxDigits (headerLines data) = some port) :
    parseAnnounce maxDigits data source = (announcedHashes (headerLines data)).map fun ih =>
      ⟨source, port, ih, announcedCookie (headerLines data)⟩ := by
  rw [parseAnnounce_eq, if_pos hsearch, hport]

theorem reported {source : PyStr} {ann : LSDAnnounce}
    (h : ann ∈ parseAnnounce maxDigits data source) :
    IsSearch data ∧ ann.infoHash ∈ announcedHashes (headerLines data) ∧
      announcedPort maxDigits (headerLines data) = some ann.port := by
  rw [parseAnnounce_eq] at h
  split at h
  · next hsearch =>
    split at h
    · cases h
    · next port hport =>
      obtain ⟨ih, hmem, rfl⟩ := List.mem_map.mp h
      exact ⟨hsearch, hmem, hport⟩
  · cases h

theorem length_of_announced {lines : List PyStr} {ih : Bytes} (h : ih ∈ announcedHashes lines) :
    ih.length = 20 :=
  of_decide_eq_true (List.mem_filter.mp h).2

theorem announcedHashes_skip {before after : List PyStr} {line : PyStr}
    (h : ∀ ih ∈ (headerValue headerInfohash line).bind fromHex, ih.length ≠ 20) :
    announcedHashes (before ++ line :: after) = announcedHashes (before ++ after) := by
  have hline : announcedHashes [line] = [] := by
    rw [announcedHashes, List.filter_eq_nil_iff, readableHashes_cons]
    intro ih hmem
    have hread : ih ∈ (headerValue headerInfohash line).bind fromHex := by
      simpa [readableHashes, headerValues] using hmem
    simpa using h ih hread
  have happend : ∀ front rest : List PyStr,
      announcedHashes (front ++ rest) = announcedHashes front ++ announcedHashes rest := by
    intro front rest
    rw [announcedHashes, readableHashes, headerValues, List.filterMap_append, List.filterMap_append,
      List.filter_append]
    rfl
  rw [happend, ← List.singleton_append, happend, hline, List.nil_append, happend]

end

/-- What the parser is for: the hashes of 20 bytes, at a port that can be connected to. -/
structure OnlyUsable (maxDigits : ℕ) (data : Bytes) (source : PyStr) : Prop where
  peers : ∀ ann ∈ parseAnnounce maxDigits data source, ann.infoHash.length = 20 ∧ Usable ann.port
  badPort : (∀ port ∈ announcedPort maxDigits (headerLines data), ¬ Usable port) →
    parseAnnounce maxDigits data source = []
  hashes : IsSearch data → ∀ port ∈ announcedPort maxDigits (headerLines data), Usable port →
    parseAnnounce maxDigits data source = (announcedHashes (headerLines data)).map fun ih =>
      ⟨source, port, ih, announcedCookie (headerLines data)⟩

def PortInRange (maxDigits : ℕ) (data : Bytes) : Prop :=
  IsSearch data → announcedHashes (headerLines data) ≠ [] →
    ∀ port ∈ announcedPort maxDigits (headerLines data), Usable port

theorem usable_of_inRange {maxDigits : ℕ} {data : Bytes} (source : PyStr)
    (h : PortInRange maxDigits data) : OnlyUsable maxDigits data source := by
  have husable : ∀ ann ∈ parseAnnounce maxDigits data source, Usable ann.port := by
    intro ann hann
    obtain ⟨hsearch, hmem, hport⟩ := reported hann
    exact h hsearch (List.ne_nil_of_mem hmem) ann.port hport
  refine ⟨fun ann hann => ?_, fun hbad => ?_, fun hsearch port hport _ => ?_⟩
  · exact ⟨length_of_announced (reported hann).2.1, husable ann hann⟩
  · rw [List.eq_nil_iff_forall_not_mem]
    intro ann hann
    exact hbad _ (reported hann).2.2 (husable ann hann)
  · exact parse_of_port source hsearch hport

/-- The parser gives usable peers exactly where the port is in range. -/
theorem only_usable_iff (maxDigits : ℕ) (data : Bytes) (source : PyStr) :
    OnlyUsable maxDigits data source ↔ PortInRange maxDigits data := by
  constructor
  · intro h hsearch hne port hport
    obtain ⟨ih, hmem⟩ := List.exists_mem_of_ne_nil _ hne
    have hann : ⟨source, port, ih, announcedCookie (headerLines data)⟩ ∈
        parseAnnounce maxDigits data source := by
      rw [parse_of_port source hsearch hport]
      exact List.mem_map_of_mem hmem
    exact (h.peers _ hann).2
  · exact usable_of_inRange source

def portZero (ih : Bytes) (cookie : PyStr) : Bytes := messageBytes 0 [ih] cookie (groupHost .v4)

theorem port_zero_reported :
    ¬ OnlyUsable 4300 (portZero (List.replicate 20 170) []) [49] := by
  have hparse : parseAnnounce 4300 (portZero (List.replicate 20 170) []) [49] =
      [⟨[49], 0, List.replicate 20 170, []⟩] := by
    refine parse_message (by decide) (by decide) (inline_groupHost .v4) ?_ [49]
    intro ih hmem
    rw [List.mem_singleton.mp hmem, List.length_replicate]
  intro h
  have hport := (h.peers _ (hparse ▸ List.mem_singleton_self _)).2
  exact absurd hport.1 (by decide)

/-- While every message that arrives has its port in range, all peers in the queue are usable. -/
theorem receiveAll_usable (maxDigits : ℕ) (source : Multicast → PyStr) (d : Discovery)
    (arrivals : List Datagram) (hqueue : ∀ peer ∈ d.peerQueue, Usable peer.port)
    (harrivals : ∀ datagram ∈ arrivals, PortInRange maxDigits datagram.data) :
    ∀ peer ∈ (receiveAll maxDigits source d arrivals).peerQueue, Usable peer.port := by
  intro peer hpeer
  rw [receiveAll_eq] at hpeer
  rcases List.mem_append.mp hpeer with hold | hnew
  · exact hqueue peer hold
  · obtain ⟨datagram, harrives, hheard⟩ := List.mem_flatMap.mp hnew
    obtain ⟨ann, hann, rfl⟩ := List.mem_map.mp hheard
    have husable := usable_of_inRange (source datagram.group) (harrivals datagram harrives)
    exact (husable.peers ann (List.mem_filter.mp hann).1).2

end UsablePeers
