import Aiobt.ClientStorage

/-! # The torrents of one client, kept apart

A session remembers what it wrote. While every read and write finds the backend laid out for the
torrent of its session, reads return what is remembered and writes stay within the files of their
own torrent. -/
namespace TorrentIsolation

open ByteStrings PosixPaths FileSystem SurrogateUtf8 TorrentMetadata TorrentStorage SliceLoops
open StorageRefinement ClientStorage

variable {fs : Files}

theorem byteAt_lt {base o : ℕ} {slices : List FileSlice} {b : UInt8} (h : Adjacent base slices)
    (hb : byteAt fs slices o = some b) : o < layoutEnd base slices := by
  induction h with
  | nil => cases hb
  | @cons base path length slices hrest ih =>
    rw [layoutEnd_cons]
    by_cases hhead : o < base + length
    · rw [layoutEnd]
      omega
    · rw [byteAt_tail (by omega)] at hb
      exact ih hb

theorem readLoop_zero {slices : List FileSlice} {offset : ℤ} (hreg : Regular fs slices)
    (hstart : ∀ sl ∈ slices, sl.fileOffset = 0)
    (hin : ∀ sl ∈ slices, sl.torrentOffset < offset ∧ offset < sl.torrentOffset + sl.length) :
    DiskStorage.readLoop fs slices offset 0 = .ok [] := by
  cases slices with
  | nil => rfl
  | cons sl rest =>
    obtain ⟨hnull, content, hfile⟩ := hreg sl (List.mem_cons_self ..)
    obtain ⟨hlow, hhigh⟩ := hin sl (List.mem_cons_self ..)
    have hmin : min 0 (sl.length - max 0 (offset - sl.torrentOffset)) = 0 := by omega
    have hread : syncRead fs sl.path (sl.fileOffset + max 0 (offset - sl.torrentOffset)) 0 =
        .ok [] := by
      rw [hstart sl (List.mem_cons_self ..), zero_add, syncRead, hnull, hfile]
      simp [readAt, bind, Except.bind]
    rw [DiskStorage.readLoop]
    simp only [hmin, hread, bind, Except.bind]
    rfl

/-- What a session needs of the backend and the file system: the backend is laid out for its
torrent, whose files are regular and distinct. -/
structure Serves (b : Backend) (fs : Files) (torrent : TorrentMeta) : Prop where
  laidOut : b.LaidOutFor torrent
  lengths : ∀ sl ∈ b.slices torrent, 0 ≤ sl.length
  regular : Regular fs (b.slices torrent)
  distinct : (locations fs (b.slices torrent)).Nodup

variable {b : Backend} {torrent : TorrentMeta}

theorem entrySlices_fileOffset {base : PurePath} {entries : List FileEntry} {offset : ℤ} :
    ∀ sl ∈ entrySlices base entries offset, sl.fileOffset = 0 := by
  induction entries generalizing offset with
  | nil => simp [entrySlices]
  | cons entry rest ih =>
    intro sl hm
    rcases List.mem_cons.mp hm with rfl | hm
    · rfl
    · exact ih sl hm

theorem slices_adjacent (h : ∀ sl ∈ b.slices torrent, 0 ≤ sl.length) :
    Adjacent 0 (b.slices torrent) := by
  cases b with
  | disk st => exact entrySlices_adjacent h
  | compact st =>
    obtain ⟨n, hn⟩ := Int.eq_ofNat_of_zero_le (h _ (List.mem_singleton_self _))
    simp only at hn
    rw [Backend.slices, hn]
    exact .cons .nil

theorem Serves.read (h : Serves b fs torrent) {offset : ℕ} {data : Bytes}
    (hbytes : ∀ k, k < data.length →
      byteAt fs (b.slices torrent) (offset + k) = data[k]?) :
    b.read fs offset data.length = .ok data := by
  have hadj := slices_adjacent h.lengths
  have hmap : (List.range data.length).map (fun k => data.getD k 0) = data := by
    apply List.ext_getElem?
    intro k
    by_cases hk : k < data.length
    · simp [hk]
    · simp [hk]
  cases b with
  | disk st =>
    have hlaid : st.slices = Backend.slices torrent (.disk st) := h.laidOut
    rw [Backend.read, DiskStorage.read, DiskStorage.slicesFor, hlaid]
    cases hlen : data.length with
    | zero =>
      obtain rfl := List.eq_nil_of_length_eq_zero hlen
      rw [Nat.cast_zero, add_zero, readLoop_zero]
      · rfl
      · intro sl hm
        exact h.regular sl (List.mem_of_mem_filter hm)
      · intro sl hm
        exact entrySlices_fileOffset sl (List.mem_of_mem_filter hm)
      · intro sl hm
        have hover := (List.mem_filter.mp hm).2
        simpa [DiskStorage.overlaps] using hover
    | succ n =>
      have hlast : byteAt fs (Backend.slices torrent (.disk st)) (offset + n) = some (data.getD n 0) := by
        rw [hbytes n (by omega)]
        simp [show n < data.length by omega]
      have hend := byteAt_lt hadj hlast
      have hread := readLoop_bytes hadj h.regular (f := fun o => data.getD (o - offset) 0)
        (show max offset 0 ≤ offset + (n + 1) by omega) (by omega) (by
          intro o h1 h2
          have hb := hbytes (o - offset) (by omega)
          rw [show offset + (o - offset) = o by omega] at hb
          rw [hb]
          simp [show o - offset < data.length by omega])
      rw [Nat.max_eq_left (Nat.zero_le _), Nat.add_sub_cancel_left] at hread
      rw [← Nat.cast_add, hread, ← hlen, List.range'_eq_map_range, List.map_map]
      have hcomp : ((fun o => data.getD (o - offset) 0) ∘ fun x => offset + x) =
          fun k => data.getD k 0 := by
        funext k
        simp
      rw [hcomp, hmap]
      rfl
  | compact st =>
    have hlaid : st.blobPath = some (blobPathOf st.root torrent.infoHash) := h.laidOut
    have hread : syncRead fs (blobPathOf st.root torrent.infoHash) offset data.length =
        .ok ((List.range data.length).map fun k => data.getD k 0) := by
      apply syncRead_bytes (h.regular _ (List.mem_singleton_self _))
      intro k hk
      have hb := hbytes k hk
      rw [List.getElem?_eq_getElem hk] at hb
      have hend := byteAt_lt hadj hb
      rw [Backend.slices, byteAt] at hb
      split at hb
      · have hcast : ((offset + k : ℕ) : ℤ).toNat = offset + k := Int.toNat_natCast _
        rw [sub_zero, hcast] at hb
        simpa [hk] using hb
      · cases hb
    rw [Backend.read, CompactStorage.read, hlaid]
    simp only [hread, hmap]
    rfl

theorem Serves.write (h : Serves b fs torrent) {offset : ℕ} {data : Bytes}
    (hfits : offset + data.length ≤ layoutEnd 0 (b.slices torrent)) :
    ∃ fs', b.write fs offset data = (.ok (), fs') ∧
      Written fs (b.slices torrent) 0 offset (offset + data.length) data 0 fs' := by
  have hadj := slices_adjacent h.lengths
  cases b with
  | disk st =>
    have hlaid : st.slices = Backend.slices torrent (.disk st) := h.laidOut
    obtain ⟨fs', hrun, hwritten⟩ := writeLoop_bytes hadj h.regular h.distinct
      (show max offset 0 ≤ offset + data.length by omega) hfits
      (show 0 + (offset + data.length - max offset 0) = data.length by omega)
    rw [Nat.max_eq_left (Nat.zero_le _), Nat.add_sub_cancel_left] at hrun
    rw [Nat.max_eq_left (Nat.zero_le _)] at hwritten
    refine ⟨fs', ?_, hwritten⟩
    rw [Backend.write, DiskStorage.write, DiskStorage.slicesFor, hlaid, ← Nat.cast_add]
    rw [Nat.cast_zero] at hrun
    rw [hrun]
    rfl
  | compact st =>
    have hlaid : st.blobPath = some (blobPathOf st.root torrent.infoHash) := h.laidOut
    obtain ⟨n, hn⟩ := Int.eq_ofNat_of_zero_le (h.lengths _ (List.mem_singleton_self _))
    simp only at hn
    have hreg := h.regular
    rw [Backend.slices, hn] at hfits hreg ⊢
    obtain ⟨hnull, content, hfile⟩ := hreg _ (List.mem_singleton_self _)
    have hhead := Written.head hreg hfile List.not_mem_nil (Nat.zero_le offset)
      (show offset + data.length ≤ 0 + n from hfits) (Nat.le_add_right ..)
      (show 0 + (offset + data.length - offset) ≤ data.length by omega)
    rw [List.drop_zero, Nat.add_sub_cancel_left, List.take_length, Nat.sub_zero] at hhead
    refine ⟨_, ?_, hhead⟩
    rw [Backend.write, CompactStorage.write, hlaid]
    simp only [syncWrite_file hnull hfile]
    rfl

/-- For each session and offset the byte last written there, unless that write failed. -/
abbrev Memory := ℕ → ℤ → Option UInt8

def remember (m : Memory) (c : Client) : Action → Memory
  | .write s offset data => fun id o =>
    if id = s.id ∧ offset ≤ o ∧ o < offset + data.length then
      match (c.backend.write c.fs offset data).1 with
      | .ok () => data[(o - offset).toNat]?
      | .error _ => none
    else m id o
  | _ => m

structure Recorded where
  client : Client
  memory : Memory

def Recorded.perform (r : Recorded) (a : Action) : Recorded :=
  ⟨r.client.perform a, remember r.memory r.client a⟩

def started (b : Backend) (fs : Files) : Recorded := ⟨⟨b, fs, [], []⟩, fun _ _ => none⟩

def Along (P : Recorded → Action → Prop) : Recorded → List Action → Prop
  | _, [] => True
  | r, a :: rest => P r a ∧ Along P (r.perform a) rest

/-- Reads and writes come from sessions that were registered once. -/
def Issued (r : Recorded) : Action → Prop
  | .read s _ _ => s ∈ r.client.created
  | .write s _ _ => s ∈ r.client.created
  | _ => True

/-- A registered session reads what it last wrote; a write leaves the files of every other
registered session as they are. -/
def Isolated (r : Recorded) : Action → Prop
  | .read s offset length => r.client.Registered s → ∀ data : Bytes, (data.length : ℤ) = length →
      (∀ k : ℕ, k < data.length → r.memory s.id (offset + k) = data[k]?) →
      r.client.backend.read r.client.fs offset length = .ok data
  | .write s offset data => ∀ other, r.client.Registered other → other ≠ s →
      ∀ loc ∈ r.client.filesOf other,
        (r.client.perform (.write s offset data)).fs.node loc = r.client.fs.node loc
  | _ => True

/-- The backend serves the session of a read or a write, and what is written lies in the torrent
and not in files of other torrents. -/
def Served (r : Recorded) : Action → Prop
  | .read s offset _ => 0 ≤ offset ∧ Serves r.client.backend r.client.fs s.torrent
  | .write s offset data => 0 ≤ offset ∧ Serves r.client.backend r.client.fs s.torrent ∧
      offset + data.length ≤ layoutEnd 0 (r.client.backend.slices s.torrent) ∧
      ∀ other, r.client.Registered other → other ≠ s →
        List.Disjoint (r.client.filesOf s) (r.client.filesOf other)
  | _ => True

structure Kept (r : Recorded) : Prop where
  identity : ∀ s ∈ r.client.created, ∀ s' ∈ r.client.created, s.id = s'.id → s = s'
  bounded : ∀ s ∈ r.client.created, s.id < r.client.created.length
  registered : ∀ s, r.client.Registered s → s ∈ r.client.created
  unwritten : ∀ id, r.client.created.length ≤ id → ∀ o, r.memory id o = none
  holds : ∀ s, r.client.Registered s → ∀ o byte, r.memory s.id o = some byte →
    ∃ n : ℕ, o = n ∧ byteAt r.client.fs (r.client.backend.slices s.torrent) n = some byte

theorem kept_started (b : Backend) (fs : Files) : Kept (started b fs) where
  identity := by simp [started]
  bounded := by simp [started]
  registered := by simp [started, Client.Registered]
  unwritten _ _ _ := rfl
  holds := by simp [started]

/-- A registration changes nothing, or it adds files and the backend keeps its place; when it goes
through it adds a session as well. -/
theorem register_cases (c : Client) (torrent : TorrentMeta) :
    c.register torrent = c ∨ ∃ backend fs', Extends c.fs fs' ∧
      (∀ u, backend.slices u = c.backend.slices u) ∧
      (c.register torrent = { c with backend := backend, fs := fs' } ∨
        backend.LaidOutFor torrent ∧ c.register torrent =
          { backend := backend
            fs := fs'
            sessions := c.sessions ++ [(torrent.infoHash, ⟨c.created.length, torrent⟩)]
            created := c.created ++ [⟨c.created.length, torrent⟩] }) := by
  unfold Client.register
  split
  · exact Or.inl rfl
  · split
    · exact Or.inl rfl
    · next totalLength htotal =>
      split
      · exact Or.inl rfl
      · right
        have hext := Backend.layOut_extends
          (c.backend.opened totalLength torrent.info.pieceLength) torrent c.fs
        have hslices : ∀ u, ((c.backend.opened totalLength torrent.info.pieceLength).layOut torrent
            c.fs).2.1.slices u = c.backend.slices u := fun u => by
          rw [Backend.slices_layOut, Backend.slices_opened]
        have hlaid : ((c.backend.opened totalLength torrent.info.pieceLength).layOut torrent
            c.fs).1 = .ok () → ((c.backend.opened totalLength torrent.info.pieceLength).layOut
              torrent c.fs).2.1.LaidOutFor torrent := Backend.laidOutFor_layOut htotal
        split
        · next heq =>
          rw [heq] at hext hslices
          exact ⟨_, _, hext, hslices, Or.inl rfl⟩
        · next heq =>
          rw [heq] at hext hslices hlaid
          exact ⟨_, _, hext, hslices, Or.inr ⟨hlaid rfl, rfl⟩⟩

theorem Kept.register {r : Recorded} (h : Kept r) (torrent : TorrentMeta) :
    Kept (r.perform (.register torrent)) := by
  have hclient : r.perform (.register torrent) = ⟨r.client.register torrent, r.memory⟩ := rfl
  rw [hclient]
  rcases register_cases r.client torrent with heq | ⟨backend, fs', hext, hslices, heq | ⟨-, heq⟩⟩
  · rw [heq]
    exact ⟨h.identity, h.bounded, h.registered, h.unwritten, h.holds⟩
  · rw [heq]
    refine ⟨h.identity, h.bounded, h.registered, h.unwritten, fun s hs o byte hb => ?_⟩
    obtain ⟨n, ho, hbyte⟩ := h.holds s hs o byte hb
    refine ⟨n, ho, ?_⟩
    simp only [hslices]
    exact byteAt_extends hext hbyte
  · rw [heq]
    have hnew : ∀ s, s ∈ r.client.created ++ [⟨r.client.created.length, torrent⟩] →
        s ∈ r.client.created ∨ s = ⟨r.client.created.length, torrent⟩ := fun s hs => by
      rcases List.mem_append.mp hs with hs | hs
      · exact Or.inl hs
      · exact Or.inr (List.mem_singleton.mp hs)
    constructor
    · intro s hs s' hs' hid
      rcases hnew s hs with hs | rfl
      · rcases hnew s' hs' with hs' | rfl
        · exact h.identity s hs s' hs' hid
        · exact absurd hid (h.bounded s hs).ne
      · rcases hnew s' hs' with hs' | rfl
        · exact absurd hid.symm (h.bounded s' hs').ne
        · rfl
    · intro s hs
      simp only [List.length_append, List.length_singleton]
      rcases hnew s hs with hs | rfl
      · have := h.bounded s hs
        omega
      · exact Nat.lt_succ_self _
    · rintro s ⟨infoHash, hs⟩
      rcases List.mem_append.mp hs with hs | hs
      · exact List.mem_append_left _ (h.registered s ⟨infoHash, hs⟩)
      · rw [(Prod.mk.inj (List.mem_singleton.mp hs)).2]
        exact List.mem_append_right _ (List.mem_singleton_self _)
    · intro id hid o
      simp only [List.length_append, List.length_singleton] at hid
      exact h.unwritten id (by omega) o
    · rintro s ⟨infoHash, hs⟩ o byte hb
      rcases List.mem_append.mp hs with hs | hs
      · obtain ⟨n, ho, hbyte⟩ := h.holds s ⟨infoHash, hs⟩ o byte hb
        refine ⟨n, ho, ?_⟩
        simp only [hslices]
        exact byteAt_extends hext hbyte
      · have hsession := (Prod.mk.inj (List.mem_singleton.mp hs)).2
        simp only [hsession, h.unwritten _ (le_refl _)] at hb
        cases hb

theorem Kept.remove {r : Recorded} (h : Kept r) (infoHash : Bytes) (deleteData : Bool) :
    Kept (r.perform (.remove infoHash deleteData)) := by
  have hclient : r.perform (.remove infoHash deleteData) =
      ⟨r.client.remove infoHash deleteData, r.memory⟩ := rfl
  rw [hclient]
  unfold Client.remove
  split
  · exact ⟨h.identity, h.bounded, h.registered, h.unwritten, h.holds⟩
  · have hstill : ∀ s, (∃ hash, (hash, s) ∈
        r.client.sessions.filter fun entry => entry.1 ≠ infoHash) → r.client.Registered s :=
      fun s ⟨hash, hs⟩ => ⟨hash, List.mem_of_mem_filter hs⟩
    refine ⟨h.identity, h.bounded, fun s hs => h.registered s (hstill s hs), h.unwritten,
      fun s hs o byte hb => ?_⟩
    obtain ⟨n, ho, hbyte⟩ := h.holds s (hstill s hs) o byte hb
    refine ⟨n, ho, ?_⟩
    cases deleteData with
    | false => exact hbyte
    | true =>
      simp only [if_true, Backend.slices_close]
      exact hbyte

theorem Kept.write {r : Recorded} (h : Kept r) {s : Session} {offset : ℤ} {data : Bytes}
    (hissued : s ∈ r.client.created) (hserved : Served r (.write s offset data)) :
    Kept (r.perform (.write s offset data)) := by
  obtain ⟨hpos, hserves, hfits, hapart⟩ := hserved
  obtain ⟨start, rfl⟩ := Int.eq_ofNat_of_zero_le hpos
  obtain ⟨fs', hrun, hwritten⟩ := hserves.write (show start + data.length ≤ _ by exact_mod_cast hfits)
  have hclient : r.perform (.write s start data) =
      ⟨{ r.client with fs := fs' }, remember r.memory r.client (.write s start data)⟩ := by
    rw [Recorded.perform, Client.perform, hrun]
  have hmemory : ∀ id o, remember r.memory r.client (.write s start data) id o =
      if id = s.id ∧ (start : ℤ) ≤ o ∧ o < start + data.length then data[(o - start).toNat]?
      else r.memory id o := fun id o => by
    simp only [remember, hrun]
  rw [hclient]
  refine ⟨h.identity, h.bounded, h.registered, fun id hid o => ?_, fun u hu o byte hb => ?_⟩
  · have hne : id ≠ s.id := fun heq => absurd (h.bounded s hissued) (by rw [← heq]; exact hid.not_gt)
    simp only [hmemory, hne, false_and, if_false]
    exact h.unwritten id hid o
  · simp only [hmemory] at hb
    by_cases hus : u = s
    · subst hus
      by_cases hin : (start : ℤ) ≤ o ∧ o < start + data.length
      · rw [if_pos ⟨rfl, hin⟩] at hb
        obtain ⟨n, rfl⟩ := Int.eq_ofNat_of_zero_le (le_trans hpos hin.1)
        refine ⟨n, rfl, ?_⟩
        rw [hwritten.inside n (by omega) (by omega), zero_add, ← hb]
        congr 1
        omega
      · rw [if_neg fun hall => hin hall.2] at hb
        obtain ⟨n, rfl, hbyte⟩ := h.holds u hu o byte hb
        exact ⟨n, rfl, hwritten.outside n byte (Nat.zero_le n) (by omega) hbyte⟩
    · have hid : u.id ≠ s.id := fun heq => hus (h.identity u (h.registered u hu) s hissued heq)
      simp only [hid, false_and, if_false] at hb
      obtain ⟨n, ho, hbyte⟩ := h.holds u hu o byte hb
      refine ⟨n, ho, ?_⟩
      rw [byteAt_congr hwritten.cwd fun loc hm => hwritten.others loc fun hm' =>
        hapart u hu hus hm' hm]
      exact hbyte

theorem Kept.perform {r : Recorded} (h : Kept r) {a : Action} (hissued : Issued r a)
    (hserved : Served r a) : Kept (r.perform a) := by
  cases a with
  | register torrent => exact h.register torrent
  | remove infoHash deleteData => exact h.remove infoHash deleteData
  | read s offset length => exact ⟨h.identity, h.bounded, h.registered, h.unwritten, h.holds⟩
  | write s offset data => exact h.write hissued hserved

theorem Kept.isolated {r : Recorded} (h : Kept r) {a : Action} (hserved : Served r a) :
    Isolated r a := by
  cases a with
  | register torrent => trivial
  | remove infoHash deleteData => trivial
  | read s offset length =>
    rintro hreg data rfl hlast
    obtain ⟨hpos, hserves⟩ := hserved
    obtain ⟨start, rfl⟩ := Int.eq_ofNat_of_zero_le hpos
    apply hserves.read
    intro k hk
    have hk' := hlast k hk
    rw [List.getElem?_eq_getElem hk] at hk' ⊢
    obtain ⟨n, hn, hbyte⟩ := h.holds s hreg _ _ hk'
    obtain rfl : start + k = n := by omega
    exact hbyte
  | write s offset data =>
    intro other hreg hne loc hm
    obtain ⟨hpos, hserves, hfits, hapart⟩ := hserved
    obtain ⟨start, rfl⟩ := Int.eq_ofNat_of_zero_le hpos
    obtain ⟨fs', hrun, hwritten⟩ := hserves.write (show start + data.length ≤ _ by exact_mod_cast hfits)
    rw [Client.perform, hrun]
    exact hwritten.others loc fun hm' => hapart other hreg hne hm' hm

theorem Kept.along {r : Recorded} (h : Kept r) {acts : List Action}
    (hacts : Along (fun r a => Issued r a ∧ Served r a) r acts) : Along Isolated r acts := by
  induction acts generalizing r with
  | nil => trivial
  | cons a rest ih =>
    obtain ⟨⟨hissued, hserved⟩, hrest⟩ := hacts
    exact ⟨h.isolated hserved, ih (h.perform hissued hserved) hrest⟩

theorem hexDigit_injective {m n : ℕ} (hm : m < 16) (hn : n < 16) (h : hexDigit m = hexDigit n) :
    m = n := by
  unfold hexDigit at h
  split at h <;> split at h <;> omega

theorem hex_injective {a b : Bytes} (h : hex a = hex b) : a = b := by
  induction a generalizing b with
  | nil =>
    cases b with
    | nil => rfl
    | cons y b => simp [hex] at h
  | cons x a ih =>
    cases b with
    | nil => simp [hex] at h
    | cons y b =>
      simp only [hex, List.flatMap_cons, List.cons_append, List.nil_append, List.cons.injEq] at h
      obtain ⟨h1, h2, hrest⟩ := h
      have hx := x.toNat_lt
      have hy := y.toNat_lt
      have hhigh := hexDigit_injective (by omega) (by omega) h1
      have hlow := hexDigit_injective (by omega) (by omega) h2
      rw [ih hrest, UInt8.toNat_inj.mp (show x.toNat = y.toNat by omega)]

/-- A name that is a single part, and paths below it that do not leave it. -/
structure Plain (info : TorrentInfo) : Prop where
  name : parse info.name = ⟨.relative, [info.name]⟩
  name_ne : info.name ≠ dotdot
  entries : ∀ files, info.files = some files → ∀ entry ∈ files,
    entry.relativePath.root = .relative ∧ descends 0 entry.relativePath.parts = true

theorem locate_join_part (root : PurePath) {part : Part} {rest : List Part} (hpart : part ≠ dotdot)
    (hrest : rest = [] ∨ descends 0 rest = true) :
    ∃ below, fs.locate ⟨root.root, root.parts ++ part :: rest⟩ = fs.locate root ++ part :: below := by
  have hstart : fs.locate ⟨root.root, root.parts ++ part :: rest⟩ =
      rest.foldl (pushPart true) (fs.locate root ++ [part]) := by
    by_cases hroot : root.root = .relative
    · simp [Files.locate, PurePath.isAbsolute, hroot, pushPart, hpart]
    · simp [Files.locate, PurePath.isAbsolute, hroot, pushPart, hpart]
  rcases hrest with rfl | hdesc
  · exact ⟨[], hstart⟩
  · obtain ⟨below, -, -, heq⟩ :=
      foldl_pushPart_of_descends true (fs.locate root ++ [part]) [] List.not_mem_nil hdesc
    rw [List.append_nil] at heq
    exact ⟨below, by rw [hstart, heq, List.append_assoc, List.singleton_append]⟩

theorem mem_entrySlices {base : PurePath} {entries : List FileEntry} {offset : ℤ} {sl : FileSlice}
    (h : sl ∈ entrySlices base entries offset) :
    ∃ entry ∈ entries, sl.path = join base entry.relativePath := by
  induction entries generalizing offset with
  | nil => cases h
  | cons entry rest ih =>
    rcases List.mem_cons.mp h with rfl | hm
    · exact ⟨entry, List.mem_cons_self .., rfl⟩
    · obtain ⟨e, he, hpath⟩ := ih hm
      exact ⟨e, List.mem_cons_of_mem _ he, hpath⟩

theorem Plain.location (h : Plain torrent.info) {st : DiskStorage} {loc : Location}
    (hm : loc ∈ locations fs (Backend.slices torrent (.disk st))) :
    ∃ below, loc = fs.locate st.root ++ torrent.info.name :: below := by
  obtain ⟨sl, hsl, rfl⟩ := List.mem_map.mp hm
  obtain ⟨entry, hentry, hpath⟩ := mem_entrySlices hsl
  have hrel : entry.relativePath.root = .relative ∧
      (entry.relativePath.parts = [] ∨ descends 0 entry.relativePath.parts = true) := by
    cases hfiles : torrent.info.files with
    | none =>
      rw [hfiles] at hentry
      obtain rfl := List.mem_singleton.mp hentry
      exact ⟨rfl, Or.inl rfl⟩
    | some files =>
      rw [hfiles] at hentry
      exact ⟨(h.entries files hfiles entry hentry).1,
        Or.inr (h.entries files hfiles entry hentry).2⟩
  obtain ⟨below, hloc⟩ : ∃ below, fs.locate ⟨st.root.root, st.root.parts ++ torrent.info.name ::
      entry.relativePath.parts⟩ = fs.locate st.root ++ torrent.info.name :: below :=
    locate_join_part st.root h.name_ne hrel.2
  refine ⟨below, ?_⟩
  rw [hpath, join_relative hrel.1, join_relative (by rw [h.name]), h.name, ← hloc,
    List.append_assoc, List.singleton_append]

/-- On disk, plain torrents with distinct names share no file. -/
theorem Plain.disjoint {t u : TorrentMeta} (ht : Plain t.info) (hu : Plain u.info)
    (hne : t.info.name ≠ u.info.name) (st : DiskStorage) (fs : Files) :
    List.Disjoint (locations fs (Backend.slices t (.disk st)))
      (locations fs (Backend.slices u (.disk st))) := by
  intro loc h1 h2
  obtain ⟨below, hloc⟩ := ht.location h1
  obtain ⟨below', hloc'⟩ := hu.location h2
  exact hne (List.cons.inj (List.append_cancel_left (hloc.symm.trans hloc'))).1

theorem blobs_disjoint {t u : TorrentMeta} (hne : t.infoHash ≠ u.infoHash) (st : CompactStorage)
    (fs : Files) :
    List.Disjoint (locations fs (Backend.slices t (.compact st)))
      (locations fs (Backend.slices u (.compact st))) := by
  have hname : ∀ infoHash : Bytes, hex infoHash ++ blobSuffix ≠ dotdot := fun infoHash heq => by
    have := congrArg List.length heq
    simp [blobSuffix, dotdot] at this
  have hblob : ∀ infoHash : Bytes, ∃ below, fs.locate (blobPathOf st.root infoHash) =
      fs.locate st.root ++ (hex infoHash ++ blobSuffix) :: below := fun infoHash => by
    rw [blobPathOf, join_relative (by rw [parse_blobName]), parse_blobName]
    exact locate_join_part st.root (hname infoHash) (Or.inl rfl)
  intro loc h1 h2
  obtain ⟨below, hloc⟩ := hblob t.infoHash
  obtain ⟨below', hloc'⟩ := hblob u.infoHash
  simp only [locations, Backend.slices, List.map_cons, List.map_nil, List.mem_singleton] at h1 h2
  rw [h1, hloc, hloc'] at h2
  have hhead := (List.cons.inj (List.append_cancel_left h2)).1
  exact hne (hex_injective (List.append_cancel_right hhead))

/-- In a run whose reads and writes are all served, every step is isolated. -/
theorem isolated_while_served (b : Backend) (fs : Files) (acts : List Action)
    (h : Along (fun r a => Issued r a ∧ Served r a) (started b fs) acts) :
    Along Isolated (started b fs) acts := (kept_started b fs).along h

def oneByteTorrent (name : PyStr) (infoHash : Bytes) : TorrentMeta where
  info :=
    { name := name, pieceLength := 1, piecesRaw := List.replicate 20 0, length := some 1,
      files := none, isPrivate := false }
  infoHash := infoHash
  announce := none
  announceList := none
  creationDate := none
  comment := none
  createdBy := none

def first : Session := ⟨0, oneByteTorrent [97] (List.replicate 20 1)⟩
def second : Session := ⟨1, oneByteTorrent [98] (List.replicate 20 2)⟩

def rootR : Backend := .disk (DiskStorage.new [47, 114])

theorem plain_oneByteTorrent {c : ℕ} {infoHash : Bytes} (h : c ≠ 47 ∧ c ≠ 46) :
    Plain (oneByteTorrent [c] infoHash).info where
  name := by
    refine parse_part ?_ (by simp [oneByteTorrent]) ?_
    · simpa [oneByteTorrent, slash] using h.1.symm
    · simpa [oneByteTorrent, dot] using h.2
  name_ne := by simp [oneByteTorrent, dotdot]
  entries files hfiles := by cases hfiles

theorem serves_oneByteTorrent {b : Backend} {fs : Files} {torrent : TorrentMeta} {path : PurePath}
    {content : Bytes} (hlaid : b.LaidOutFor torrent) (hslices : b.slices torrent = [⟨path, 0, 0, 1⟩])
    (hnull : hasNull path = false) (hfile : fs.node (fs.locate path) = some (.file content)) :
    Serves b fs torrent where
  laidOut := hlaid
  lengths sl hm := by
    rw [hslices, List.mem_singleton] at hm
    rw [hm]
    exact Int.one_nonneg
  regular sl hm := by
    rw [hslices, List.mem_singleton] at hm
    rw [hm]
    exact ⟨hnull, content, hfile⟩
  distinct := by
    rw [hslices]
    exact List.nodup_singleton _

/-- Each torrent is written and read while the backend is laid out for it. -/
theorem one_after_the_other_isolated :
    Along Isolated (started rootR ⟨[], fun _ => none⟩)
      [.register first.torrent, .write first 0 [7], .register second.torrent, .write second 0 [9],
        .remove first.torrent.infoHash false, .read second 0 1] := by
  apply isolated_while_served
  refine ⟨⟨trivial, trivial⟩, ⟨?_, by decide, ?_, ?_, ?_⟩, ⟨trivial, trivial⟩,
    ⟨?_, by decide, ?_, ?_, ?_⟩, ⟨trivial, trivial⟩, ⟨?_, by decide, ?_⟩, trivial⟩
  · show first ∈ _
    decide
  · exact serves_oneByteTorrent rfl rfl rfl (show _ = some (Node.file [0]) by decide)
  · decide
  · rintro other ⟨infoHash, hm⟩ hne
    exact absurd (Prod.mk.inj (List.mem_singleton.mp hm)).2 hne
  · show second ∈ _
    decide
  · exact serves_oneByteTorrent rfl rfl rfl (show _ = some (Node.file [0]) by decide)
  · decide
  · rintro other ⟨infoHash, hm⟩ hne
    rcases List.mem_cons.mp hm with hm | hm
    · rw [(Prod.mk.inj hm).2]
      exact Plain.disjoint (plain_oneByteTorrent (by decide)) (plain_oneByteTorrent (by decide))
        (by decide) _ _
    · exact absurd (Prod.mk.inj (List.mem_singleton.mp hm)).2 hne
  · show second ∈ _
    decide
  · exact serves_oneByteTorrent rfl rfl rfl (show _ = some (Node.file [9]) by decide)

def registeredTorrents : List Action → List TorrentMeta
  | [] => []
  | .register torrent :: rest => torrent :: registeredTorrents rest
  | _ :: rest => registeredTorrents rest

def DistinctTorrents (acts : List Action) : Prop :=
  (registeredTorrents acts).Pairwise fun t u =>
    t.infoHash ≠ u.infoHash ∧ t.info.name ≠ u.info.name

/-- After the second torrent is registered, the first one is written into the file of the second. -/
theorem first_writes_to_second :
    ¬ ∀ (b : Backend) (fs : Files) (acts : List Action), DistinctTorrents acts →
      Along Issued (started b fs) acts → Along Isolated (started b fs) acts := by
  intro h
  have hdistinct : DistinctTorrents
      [.register first.torrent, .register second.torrent, .write first 0 [7]] := by
    unfold DistinctTorrents
    decide
  have hrun := h rootR ⟨[], fun _ => none⟩ _ hdistinct ⟨trivial, trivial, by
    show first ∈ _
    decide, trivial⟩
  have hfile := hrun.2.2.1 second ⟨second.torrent.infoHash, by decide⟩ (by decide) [[114], [98]] (by decide)
  revert hfile
  decide

end TorrentIsolation
