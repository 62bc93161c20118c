import Aiobt.DiskCalls

/-! # Files under storage calls

What the files hold, and where a call is, while calls of the storage are under way in any number of
threads. -/
namespace DiskContents

open ByteStrings PosixPaths FileSystem PieceTracker PeerMessages PieceEngine SessionTasks EngineTurns
open InterleavedProcesses TorrentStorage SliceLoops StorageRefinement FlatStore ServedPieces
open VerifiedPieces DiskCalls

variable {sha1 : Bytes → Bytes} {content : ℕ → Bytes} {specs : List PieceSpec} {size : ℕ}
  {fs : Files} {base : ℕ} {slices left : List FileSlice} {contents : List Bytes} {sl : FileSlice}

theorem laid_byte (h : Laid fs base slices contents) (hm : sl ∈ slices) {i : ℕ}
    (hi : (i : ℤ) < sl.length) : ∃ start : ℕ, (start : ℤ) = sl.torrentOffset - base ∧
      fileByte fs sl.path i = contents.flatten[start + i]? := by
  induction h with
  | nil => cases hm
  | @cons base path c slices contents hnull hfile hrest ih =>
    rcases List.mem_cons.mp hm with rfl | hm
    · refine ⟨0, by simp, ?_⟩
      rw [List.flatten_cons, zero_add, List.getElem?_append_left (by simpa using hi), fileByte, hfile]
    · obtain ⟨n, hn, hbyte⟩ := ih hm
      refine ⟨c.length + n, by push_cast at hn ⊢; omega, ?_⟩
      rw [hbyte, List.flatten_cons, List.getElem?_append_right (by omega)]
      congr 1
      omega

theorem laid_write (h : Laid fs base slices contents) (hnodup : (locations fs slices).Nodup)
    (hm : sl ∈ slices) {i : ℕ} {data : Bytes} (hi : (i : ℤ) + data.length ≤ sl.length) :
    ∃ (start : ℕ) (c : Bytes) (contents' : List Bytes), (start : ℤ) = sl.torrentOffset - base ∧
      hasNull sl.path = false ∧ fs.node (fs.locate sl.path) = some (.file c) ∧
      start + i + data.length ≤ contents.flatten.length ∧
      Laid (fs.put (fs.locate sl.path) (.file (writeAt c i data))) base slices contents' ∧
      contents'.flatten = flatWrite contents.flatten (start + i) data := by
  induction h with
  | nil => cases hm
  | @cons base path c slices contents hnull hfile hrest ih =>
    obtain ⟨hnotMem, hnodup'⟩ := List.nodup_cons.mp hnodup
    rcases List.mem_cons.mp hm with rfl | hm
    · have hfits : i + data.length ≤ c.length := by
        simp only at hi
        omega
      refine ⟨0, c, writeAt c i data :: contents, by simp, hnull, hfile, ?_, ?_, ?_⟩
      · rw [List.flatten_cons, List.length_append]
        omega
      · refine .push hnull (put_node_self ..) ?_ (hrest.put hnotMem _)
        rw [writeAt_eq_flatWrite hfits]
        exact length_flatWrite hfits
      · rw [List.flatten_cons, List.flatten_cons, zero_add, flatWrite_append_left hfits,
          writeAt_eq_flatWrite hfits]
    · obtain ⟨n, c', contents', hn, hnull', hfile', hfits, hlaid, hflat⟩ := ih hnodup' hm
      refine ⟨c.length + n, c', c :: contents', by push_cast at hn ⊢; omega, hnull', hfile', ?_, ?_, ?_⟩
      · rw [List.flatten_cons, List.length_append]
        omega
      · refine .push hnull ?_ rfl hlaid
        rw [locate_put, put_node_of_ne, hfile]
        intro heq
        exact hnotMem (List.mem_map.mpr ⟨sl, hm, heq.symm⟩)
      · rw [List.flatten_cons, List.flatten_cons, hflat, flatWrite_append_right (by omega)]
        congr 2
        omega

inductive Covers (slices : List FileSlice) (size : ℕ) (stop : ℤ) : List FileSlice → ℤ → Prop
  | nil {cur} : stop ≤ cur ∨ size ≤ cur → Covers slices size stop [] cur
  | cons {sl rest cur} : sl ∈ slices → sl.fileOffset = 0 → sl.torrentOffset ≤ cur →
      cur ≤ sl.torrentOffset + sl.length →
      Covers slices size stop rest (min stop (sl.torrentOffset + sl.length)) →
      Covers slices size stop (sl :: rest) cur

theorem covers_of_adjacent {all : List FileSlice} {offset stop : ℕ} (h : Adjacent base slices)
    (hsub : slices ⊆ all) (hend : layoutEnd base slices = size) :
    Covers all size stop (slices.filter (DiskStorage.overlaps offset stop)) (max offset base : ℕ) := by
  induction h with
  | nil =>
    rw [layoutEnd_nil] at hend
    exact .nil (Or.inr (by omega))
  | @cons base path length slices hrest ih =>
    rw [layoutEnd_cons] at hend
    have htail : slices ⊆ all := fun x hx => hsub (List.mem_cons_of_mem _ hx)
    by_cases hbefore : base + length ≤ offset
    · have hmax : max offset (base + length) = max offset base := by omega
      rw [filter_before hbefore, ← hmax]
      exact ih htail hend
    · by_cases hafter : stop ≤ base
      · rw [(Adjacent.cons hrest).filter_after hafter]
        exact .nil (Or.inl (by omega))
      · rw [filter_inside (by omega) (by omega)]
        refine .cons (hsub List.mem_cons_self) rfl ?_ ?_ ?_
        · show (base : ℤ) ≤ _
          omega
        · show _ ≤ (base : ℤ) + length
          omega
        · by_cases hlast : stop ≤ base + length
          · rw [hrest.filter_after hlast]
            refine .nil (Or.inl ?_)
            show (stop : ℤ) ≤ min (stop : ℤ) ((base : ℤ) + length)
            omega
          · have hmax : ((max offset (base + length) : ℕ) : ℤ) =
                min (stop : ℤ) ((base : ℤ) + length) := by omega
            have hcovers := ih htail hend
            rw [hmax] at hcovers
            exact hcovers

theorem covers_slicesFor {st : DiskStorage} {offset length : ℕ} (h : Laid fs 0 st.slices contents)
    (hsize : contents.flatten.length = size) :
    Covers st.slices size (offset + length : ℤ) (st.slicesFor offset length) offset := by
  have hend : ∀ {base : ℕ} {slices : List FileSlice} {contents : List Bytes},
      Laid fs base slices contents → layoutEnd base slices = base + contents.flatten.length := by
    intro base slices contents h
    induction h with
    | nil => rfl
    | @cons base path c slices contents _ _ _ ih =>
      rw [layoutEnd_cons, ih, List.flatten_cons, List.length_append]
      omega
  have hcovers : Covers st.slices size ((offset + length : ℕ) : ℤ)
      (st.slices.filter (DiskStorage.overlaps offset (offset + length : ℕ))) (max offset 0 : ℕ) :=
    covers_of_adjacent h.adjacent (fun _ hx => hx) (by rw [hend h, hsize, zero_add])
  rw [Nat.max_eq_left (Nat.zero_le _)] at hcovers
  rw [DiskStorage.slicesFor, ← Nat.cast_add]
  exact hcovers

/-- What a thread writes is a part of a piece, at its place in the file. -/
structure Part (content : ℕ → Bytes) (specs : List PieceSpec) (slices : List FileSlice) (index : ℕ)
    (spec : PieceSpec) (sl : FileSlice) (start : ℕ) (th : Writer) : Prop where
  listed : specs[index]? = some spec
  whole : ((content index).length : ℤ) = spec.length
  slice : sl ∈ slices
  path : th.path = sl.path
  nonneg : 0 ≤ th.offset
  inside : th.offset + th.data.length ≤ sl.length
  place : sl.torrentOffset + th.offset = spec.offset + start
  bytes : ∀ (k : ℕ) (byte : UInt8), th.data[k]? = some byte → (content index)[start + k]? = some byte

def Right (content : ℕ → Bytes) (specs : List PieceSpec) (slices : List FileSlice) (th : Writer) :
    Prop :=
  ∃ index spec sl start, Part content specs slices index spec sl start th

def readRange : Proc → Option (ℤ × ℤ × Bytes)
  | .peer t =>
    match t.point with
    | .read _ _ length offset data => some (offset, length, data)
    | _ => none
  | .starter w =>
    match w.point with
    | .read _ spec data _ => some (spec.offset, spec.length, data)
    | _ => none

def storing : Proc → Bool
  | .peer t =>
    match t.point with
    | .write _ _ _ => true
    | _ => false
  | .starter _ => false

def Reads (slices : List FileSlice) (size : ℕ) (p : Proc) (left : List FileSlice)
    (offset remaining : ℤ) (fetched : ℕ) : Prop :=
  ∃ start length data, readRange p = some (start, length, data) ∧ 0 ≤ start ∧
    offset + fetched = start + data.length ∧ offset + remaining = start + length ∧
    Covers slices size (start + length) left offset

structure Writes (slices : List FileSlice) (size : ℕ) (flat : Bytes) (thread : Option Writer)
    (left : List FileSlice) (offset remaining : ℤ) (pos : ℕ) (spec : PieceSpec) (assembled : Bytes) :
    Prop where
  place : offset = spec.offset + pos
  rest : pos + remaining = assembled.length
  most : pos ≤ assembled.length
  covers : Covers slices size (spec.offset + assembled.length) left offset
  written : ∀ k < pos, ∀ byte, assembled[k]? = some byte → flat[spec.offset.toNat + k]? = some byte
  thread : ∀ th, thread = some th → ∃ sl rest, left = sl :: rest ∧
    th = ⟨sl.path, fileOff sl offset, pySlice assembled pos (pos + span sl offset remaining)⟩

section
variable (sha1 : Bytes → Bytes) (content : ℕ → Bytes) (specs : List PieceSpec) (size : ℕ)
  (st : DiskStorage) (fs₀ : Files)

structure DiskOk (d : Disk) : Prop where
  storage : d.storage = st
  laid : ∃ contents, Laid d.files 0 st.slices contents
  distinct : (locations d.files st.slices).Nodup
  verified : Verified sha1 content specs size d.view
  cwd : d.files.cwd = fs₀.cwd
  others : ∀ loc, loc ∉ locations fs₀ st.slices → d.files.node loc = fs₀.node loc

structure WorkerOk (d : Disk) (w : Worker) : Prop where
  proc : ProcOk sha1 content specs d.view w.proc
  idle : w.call = .idle → readRange w.proc = none ∧ storing w.proc = false
  reading : ∀ left offset remaining fetched, w.call = .reading left offset remaining fetched →
    Reads st.slices size w.proc left offset remaining fetched
  writing : ∀ left offset pos remaining, w.call = .writing left offset pos remaining →
    ∃ t index spec assembled n, w.proc = .peer t ∧ t.point = .write index spec assembled ∧ pos = (n : ℕ) ∧
      Writes st.slices size d.view.storage w.thread left offset remaining n spec assembled
  waits : w.thread ≠ none → ∃ left offset pos remaining, w.call = .writing left offset pos remaining
  lost : ∀ th ∈ w.lost, Right content specs st.slices th

end

variable {st : DiskStorage} {fs₀ : Files} {d d' : Disk} {w w' : Worker} {th : Writer}

theorem DiskOk.array (h : DiskOk sha1 content specs size st fs₀ d) :
    ∃ contents, Laid d.files 0 st.slices contents ∧ d.view.storage = contents.flatten ∧
      contents.flatten.length = size := by
  obtain ⟨contents, hlaid⟩ := h.laid
  have hflat : d.view.storage = contents.flatten := by
    show diskContent d.storage d.files = _
    rw [h.storage]
    exact hlaid.flatMap_content
  refine ⟨contents, hlaid, hflat, ?_⟩
  rw [← hflat]
  exact h.verified.size_eq

theorem Part.byte {index start k : ℕ} {spec : PieceSpec} {byte : UInt8}
    (h : Part content specs slices index spec sl start th) (hk : th.data[k]? = some byte) :
    Part content specs slices index spec sl (start + k) ⟨th.path, th.offset + k, [byte]⟩ where
  listed := h.listed
  whole := h.whole
  slice := h.slice
  path := h.path
  nonneg := by
    have hnonneg := h.nonneg
    show 0 ≤ th.offset + k
    omega
  inside := by
    have hlt : k < th.data.length := (List.getElem?_eq_some_iff.mp hk).1
    have hinside := h.inside
    show th.offset + k + ((1 : ℕ) : ℤ) ≤ sl.length
    omega
  place := by
    have hplace := h.place
    show sl.torrentOffset + (th.offset + k) = _
    push_cast
    omega
  bytes l b hl := by
    cases l with
    | zero =>
      obtain rfl : byte = b := by simpa using hl
      exact h.bytes k byte hk
    | succ l => simp at hl

/-- A part of a piece reaches its file: nothing that is right is lost, and the part is in place. -/
theorem DiskOk.write {index start : ℕ} {spec : PieceSpec} (h : DiskOk sha1 content specs size st fs₀ d)
    (htiles : Tiles specs size) (hspec : 0 ≤ spec.offset)
    (hpart : Part content specs st.slices index spec sl start th) : ∃ c, hasNull th.path = false ∧
      d.files.node (d.files.locate th.path) = some (.file c) ∧
      ∀ lock d', d' = { d with
          files := d.files.put (d.files.locate th.path) (.file (writeAt c th.offset.toNat th.data))
          writeLock := lock } →
        DiskOk sha1 content specs size st fs₀ d' ∧ KeepsRight content specs d.view d'.view ∧
        ∀ (k : ℕ) (byte : UInt8), th.data[k]? = some byte →
          d'.view.storage[spec.offset.toNat + (start + k)]? = some byte := by
  obtain ⟨contents, hlaid, hflat, hsize⟩ := h.array
  have hnonneg := hpart.nonneg
  have hinside := hpart.inside
  have hin₀ : ((th.offset.toNat : ℕ) : ℤ) + th.data.length ≤ sl.length := by omega
  obtain ⟨begins, c, contents', hbegins, hnull, hfile, hfits, hlaid', hflat'⟩ :=
    laid_write hlaid h.distinct hpart.slice hin₀
  rw [← hpart.path] at hnull hfile hlaid'
  refine ⟨c, hnull, hfile, ?_⟩
  rintro lock d' rfl
  have hplace := hpart.place
  have hat : begins + th.offset.toNat = spec.offset.toNat + start := by
    rw [Nat.cast_zero, sub_zero] at hbegins
    omega
  rw [hat] at hfits hflat'
  have hafter : diskContent d.storage (d.files.put (d.files.locate th.path)
      (.file (writeAt c th.offset.toNat th.data))) =
        flatWrite d.view.storage (spec.offset.toNat + start) th.data := by
    rw [h.storage, hflat, ← hflat']
    exact hlaid'.flatMap_content
  rw [← hflat] at hfits
  have hin : ∀ (k : ℕ) (byte : UInt8), th.data[k]? = some byte →
      (flatWrite d.view.storage (spec.offset.toNat + start) th.data)[spec.offset.toNat + (start + k)]? =
        some byte := by
    intro k byte hk
    rw [← Nat.add_assoc, flatWrite_getElem?_inside hfits (List.getElem?_eq_some_iff.mp hk).1, hk]
  have hkeeps : KeepsRight content specs d.view { d.view with
      storage := flatWrite d.view.storage (spec.offset.toNat + start) th.data } := by
    refine keepsRight_of_piece htiles hpart.listed hpart.whole (fun l byte hl hold => ?_) fun n hn => ?_
    · by_cases hnew : start ≤ l ∧ l < start + th.data.length
      · have hk : th.data[l - start]? = some th.data[l - start] :=
          List.getElem?_eq_getElem (by omega)
        have hbyte := hpart.bytes _ _ hk
        rw [Nat.add_sub_cancel' hnew.1, hl] at hbyte
        have hput := hin _ _ hk
        rw [Nat.add_sub_cancel' hnew.1, ← hbyte] at hput
        exact hput
      · show (flatWrite _ _ _)[_]? = _
        rw [flatWrite_getElem?_outside hfits (by omega)]
        exact hold
    · refine flatWrite_getElem?_outside hfits ?_
      by_contra hno
      rw [not_or, not_lt, not_le] at hno
      have hk : th.data[n - (spec.offset.toNat + start)]? =
          some th.data[n - (spec.offset.toNat + start)] := List.getElem?_eq_getElem (by omega)
      have hlt := (List.getElem?_eq_some_iff.mp (hpart.bytes _ _ hk)).1
      exact hn (n - spec.offset.toNat) (by omega) (by omega)
  refine ⟨⟨h.storage, ⟨contents', hlaid'⟩, h.distinct, ?_, h.cwd, fun loc hloc => ?_⟩, ?_, ?_⟩
  · refine ⟨h.verified.specs_eq, h.verified.count, ?_, h.verified.apart, fun i hi => ?_⟩
    · show (diskContent _ _).length = size
      rw [hafter, length_flatWrite hfits]
      exact h.verified.size_eq
    · have hstored := (h.verified.stored i hi).keep hkeeps
      obtain ⟨sp, hsp, hverify, hlen, hbytes⟩ := hstored
      refine ⟨sp, hsp, hverify, hlen, fun k byte hk => ?_⟩
      show (diskContent _ _)[_]? = _
      rw [hafter]
      exact hbytes k byte hk
  · rw [put_node_of_ne, h.others loc hloc]
    rintro rfl
    apply hloc
    rw [hpart.path, Files.locate, h.cwd]
    exact List.mem_map_of_mem hpart.slice
  · intro i k sp byte hi hk hbyte hold
    show (diskContent _ _)[_]? = _
    rw [hafter]
    exact hkeeps i k sp byte hi hk hbyte hold
  · intro k byte hk
    show (diskContent _ _)[_]? = _
    rw [hafter]
    exact hin k byte hk

theorem verified_engine {a : SessionAction} {p p' : Proc} {s' : Session} (htiles : Tiles specs size)
    (honly : OnlyContent sha1 content specs) (h : Verified sha1 content specs size d.view)
    (hproc : ProcOk sha1 content specs d.view p)
    (hprog : program sha1 .files a d.view p = some (s', p')) (hsame : s'.storage = d.view.storage) :
    Verified sha1 content specs size (Disk.view { d with session := s' }) ∧
      ProcOk sha1 content specs (Disk.view { d with session := s' }) p' ∧
      KeepsRight content specs d.view (Disk.view { d with session := s' }) := by
  have hview : Disk.view { d with session := s' } = s' := by
    have hflat : diskContent d.storage d.files = s'.storage := hsame.symm
    rw [Disk.view, hflat]
  rw [hview]
  cases p with
  | peer t =>
    obtain ⟨b, t', rfl, rfl, hstep⟩ := program_peer hprog
    exact h.turn htiles honly hproc (turn_of_step hstep)
  | starter st =>
    obtain ⟨b, st', rfl, rfl, hstep⟩ := program_starter hprog
    exact h.start htiles honly hproc hstep

theorem DiskOk.engine {a : SessionAction} {p p' : Proc} {s' : Session} (htiles : Tiles specs size)
    (honly : OnlyContent sha1 content specs) (h : DiskOk sha1 content specs size st fs₀ d)
    (hproc : ProcOk sha1 content specs d.view p)
    (hprog : program sha1 .files a d.view p = some (s', p')) (hsame : s'.storage = d.view.storage) :
    DiskOk sha1 content specs size st fs₀ { d with session := s' } ∧
      ProcOk sha1 content specs (Disk.view { d with session := s' }) p' ∧
      KeepsRight content specs d.view (Disk.view { d with session := s' }) := by
  obtain ⟨hgood, hkeeps⟩ := verified_engine htiles honly h.verified hproc hprog hsame
  exact ⟨⟨h.storage, h.laid, h.distinct, hgood, h.cwd, h.others⟩, hkeeps⟩

theorem content_of_write {s : Session} {t : Task} {index : ℕ} {spec : PieceSpec} {assembled : Bytes}
    (honly : OnlyContent sha1 content specs) (hproc : ProcOk sha1 content specs s (.peer t))
    (hp : t.point = .write index spec assembled) :
    specs[index]? = some spec ∧ assembled = content index ∧ (assembled.length : ℤ) = spec.length := by
  have hok : TaskOk sha1 specs t := hproc
  obtain ⟨-, hat, hverify⟩ := hok.writing index spec assembled (by rw [hp]; rfl)
  exact ⟨hat, honly index spec hat assembled hverify⟩

/-- Right bytes stay, also those that a call has written. -/
theorem WorkerOk.mono (h : WorkerOk sha1 content specs size st d w)
    (honly : OnlyContent sha1 content specs) (hkeeps : KeepsRight content specs d.view d'.view) :
    WorkerOk sha1 content specs size st d' w where
  proc := procOk_stable h.proc hkeeps
  idle := h.idle
  reading := h.reading
  writing left offset pos remaining hcall := by
    obtain ⟨t, index, spec, assembled, n, hproc, hp, hpos, hw⟩ := h.writing left offset pos remaining hcall
    refine ⟨t, index, spec, assembled, n, hproc, hp, hpos, hw.place, hw.rest, hw.most, hw.covers, ?_,
      hw.thread⟩
    intro k hk byte hbyte
    obtain ⟨hat, rfl, hlen⟩ := content_of_write honly (hproc ▸ h.proc) hp
    have hlt := (List.getElem?_eq_some_iff.mp hbyte).1
    exact hkeeps index k spec byte hat (by omega) hbyte (hw.written k hk byte hbyte)
  waits := h.waits
  lost := h.lost

theorem WorkerOk.forget (h : WorkerOk sha1 content specs size st d w) (i : ℕ) :
    WorkerOk sha1 content specs size st d { w with lost := w.lost.eraseIdx i } where
  proc := h.proc
  idle := h.idle
  reading := h.reading
  writing := h.writing
  waits := h.waits
  lost th hth := h.lost th (List.mem_of_mem_eraseIdx hth)

end DiskContents
