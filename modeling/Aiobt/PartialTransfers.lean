import Aiobt.ClientStorage
import Aiobt.LastWrites
import Mathlib.Algebra.Order.BigOperators.Group.List

/-! # Ranges that the files do not cover

`DiskStorage` transfers the share that each file has of a range. Where the files run out before the
range does, it stops without an error. -/
namespace PartialTransfers

open ByteStrings PosixPaths FileSystem SurrogateUtf8 TorrentMetadata TorrentStorage SliceLoops
  StorageRefinement ClientStorage LastWrites

structure Share where
  path : PurePath
  fileOffset : ℤ
  amount : ℤ
  deriving DecidableEq, Repr

def sliceStop (sl : FileSlice) : ℤ := sl.torrentOffset + sl.length

/-- The range goes on in each slice where the slice before it ended. -/
def shares (stop : ℤ) : List FileSlice → ℤ → List Share
  | [], _ => []
  | sl :: rest, start =>
    ⟨sl.path, start - sl.torrentOffset, min stop (sliceStop sl) - start⟩ ::
      if stop ≤ sliceStop sl then [] else shares stop rest (sliceStop sl)

def sharesOf (st : DiskStorage) (offset length : ℤ) : List Share :=
  shares (offset + length) (st.slicesFor offset length) offset

/-- Some file goes on to the end of the range or beyond it. -/
def Covers (st : DiskStorage) (stop : ℤ) : Prop := ∃ sl ∈ st.slices, stop ≤ sliceStop sl

/-- Each slice begins where the one before it ends; a length may be negative. -/
inductive Chained : ℤ → List FileSlice → Prop
  | nil {base} : Chained base []
  | cons {base path length slices} : Chained (base + length) slices →
      Chained base (⟨path, 0, base, length⟩ :: slices)

theorem chained_entrySlices (base : PurePath) (entries : List FileEntry) (offset : ℤ) :
    Chained offset (entrySlices base entries offset) := by
  induction entries generalizing offset with
  | nil => exact .nil
  | cons entry rest ih => exact .cons (ih _)

theorem chained_of_prepared {st disk : DiskStorage} {files : Option (List FileEntry)}
    {name : PyStr} {fs₀ fs₁ : Files} (h : st.prepareFiles files name fs₀ = (.ok (), disk, fs₁)) :
    Chained 0 disk.slices := by
  rw [prepareFiles_eq] at h
  obtain rfl := congrArg (fun r => r.2.1) h
  dsimp only
  rw [prepareLoop_slices (congrArg Prod.fst h), List.nil_append]
  exact chained_entrySlices _ _ _

/-- Slices that are visited one after the other, each from a start that it does not lie behind. -/
inductive Visited (stop : ℤ) : List FileSlice → ℤ → Prop
  | nil {start} : Visited stop [] start
  | last {path base length rest start} : base ≤ start → stop ≤ base + length →
      Visited stop (⟨path, 0, base, length⟩ :: rest) start
  | cons {path base length rest start} : base ≤ start → base + length < stop →
      Visited stop rest (base + length) → Visited stop (⟨path, 0, base, length⟩ :: rest) start

section

variable {offset stop start base : ℤ} {slices : List FileSlice}

theorem shares_last {path : PurePath} {length : ℤ} {rest : List FileSlice}
    (hlast : stop ≤ base + length) :
    shares stop (⟨path, 0, base, length⟩ :: rest) start = [⟨path, start - base, stop - start⟩] := by
  have hlast' : stop ≤ sliceStop ⟨path, 0, base, length⟩ := hlast
  rw [shares, if_pos hlast', min_eq_left hlast']

theorem shares_goes {path : PurePath} {length : ℤ} {rest : List FileSlice}
    (hgoes : base + length < stop) :
    shares stop (⟨path, 0, base, length⟩ :: rest) start =
      ⟨path, start - base, base + length - start⟩ :: shares stop rest (base + length) := by
  have hgoes' : sliceStop ⟨path, 0, base, length⟩ < stop := hgoes
  rw [shares, if_neg (not_le.mpr hgoes'), min_eq_right hgoes'.le, sliceStop]

theorem Chained.visited (h : Chained base slices) (hfront : offset ≤ start) (hstop : start ≤ stop)
    (hbase : base ≤ start ∨ start = stop) :
    Visited stop (slices.filter (DiskStorage.overlaps offset stop)) start := by
  induction h generalizing start with
  | nil => exact .nil
  | @cons base path length slices _ ih =>
    by_cases hover : base < stop ∧ base + length > offset
    · rw [List.filter_cons_of_pos (by simpa [DiskStorage.overlaps] using hover)]
      by_cases hlast : stop ≤ base + length
      · exact .last (by omega) hlast
      · exact .cons (by omega) (by omega) (ih (by omega) (by omega) (by omega))
    · rw [List.filter_cons_of_neg (by simpa [DiskStorage.overlaps] using hover)]
      exact ih hfront hstop (by omega)

/-- A slice that goes on to the stop or beyond it is met before the stop. -/
theorem Chained.met (h : Chained base slices) (hbase : base < stop)
    (hcover : ∃ sl ∈ slices, stop ≤ sliceStop sl) :
    ∃ sl ∈ slices, sl.torrentOffset < stop ∧ stop ≤ sliceStop sl := by
  induction h with
  | nil =>
    obtain ⟨sl, hm, -⟩ := hcover
    cases hm
  | @cons base path length slices _ ih =>
    by_cases hhere : stop ≤ base + length
    · exact ⟨_, List.mem_cons_self, hbase, hhere⟩
    · have hrest : ∃ sl ∈ slices, stop ≤ sliceStop sl := by
        obtain ⟨sl, hm, hreach⟩ := hcover
        rcases List.mem_cons.mp hm with rfl | hm
        · exact absurd hreach hhere
        · exact ⟨sl, hm, hreach⟩
      obtain ⟨sl, hm, hmet⟩ := ih (by omega) hrest
      exact ⟨sl, List.mem_cons_of_mem _ hm, hmet⟩

/-- The shares make up the whole range where a visited slice goes on to its end. -/
theorem Visited.total (h : Visited stop slices start) (hcover : ∃ sl ∈ slices, stop ≤ sliceStop sl) :
    ((shares stop slices start).map Share.amount).sum = stop - start := by
  induction h with
  | nil =>
    obtain ⟨sl, hm, -⟩ := hcover
    cases hm
  | @last path base length rest start _ hlast =>
    rw [shares_last hlast, List.map_singleton, List.sum_singleton]
  | @cons path base length rest start _ hgoes _ ih =>
    have hrest : ∃ sl ∈ rest, stop ≤ sliceStop sl := by
      obtain ⟨sl, hm, hreach⟩ := hcover
      rcases List.mem_cons.mp hm with rfl | hm
      · exact absurd hreach (not_le.mpr hgoes)
      · exact ⟨sl, hm, hreach⟩
    rw [shares_goes hgoes, List.map_cons, List.sum_cons, ih hrest]
    dsimp only
    omega

theorem Visited.total_lt (h : Visited stop slices start) (hstart : start < stop)
    (hcover : ¬ ∃ sl ∈ slices, stop ≤ sliceStop sl) :
    ((shares stop slices start).map Share.amount).sum < stop - start := by
  induction h with
  | nil =>
    rw [shares, List.map_nil, List.sum_nil]
    omega
  | @last path base length rest start _ hlast =>
    exact absurd ⟨_, List.mem_cons_self, hlast⟩ hcover
  | @cons path base length rest start _ hgoes _ ih =>
    have hrest : ¬ ∃ sl ∈ rest, stop ≤ sliceStop sl := by
      rintro ⟨sl, hm, hreach⟩
      exact hcover ⟨sl, List.mem_cons_of_mem _ hm, hreach⟩
    have htail := ih hgoes hrest
    rw [shares_goes hgoes, List.map_cons, List.sum_cons]
    dsimp only
    omega

theorem Visited.fileOffset_nonneg (h : Visited stop slices start) :
    ∀ share ∈ shares stop slices start, 0 ≤ share.fileOffset := by
  induction h with
  | nil => exact fun share hm => absurd hm List.not_mem_nil
  | @last path base length rest start hbase hlast =>
    rw [shares_last hlast]
    exact List.forall_mem_singleton.mpr (sub_nonneg.mpr hbase)
  | @cons path base length rest start hbase hgoes _ ih =>
    rw [shares_goes hgoes]
    exact List.forall_mem_cons.mpr ⟨sub_nonneg.mpr hbase, ih⟩

/-- Nor do they make up more. -/
theorem Visited.total_le (h : Visited stop slices start) (hstart : start ≤ stop) :
    ((shares stop slices start).map Share.amount).sum ≤ stop - start := by
  by_cases hcover : ∃ sl ∈ slices, stop ≤ sliceStop sl
  · exact (h.total hcover).le
  · rcases hstart.lt_or_eq with hlt | rfl
    · exact (h.total_lt hlt hcover).le
    · cases h with
      | nil => exact (sub_self start).ge
      | last _ hlast => exact absurd ⟨_, List.mem_cons_self, hlast⟩ hcover
      | @cons path base length rest _ _ hgoes hrest =>
        have htail := hrest.total_lt hgoes fun ⟨sl, hm, hreach⟩ =>
          hcover ⟨sl, List.mem_cons_of_mem _ hm, hreach⟩
        rw [shares_goes hgoes, List.map_cons, List.sum_cons]
        dsimp only
        omega

end

def readShares (fs : Files) : List Share → Except OsError Bytes
  | [] => .ok []
  | share :: rest => do
    let data ← syncRead fs share.path share.fileOffset share.amount
    let chunks ← readShares fs rest
    .ok (data ++ chunks)

def writeShares (data : Bytes) : List Share → ℤ → Files → Effect Unit
  | [], _, fs => (.ok (), fs)
  | share :: rest, pos, fs =>
    match syncWrite fs share.path share.fileOffset (pySlice data pos (pos + share.amount)) with
    | (.error e, fs) => (.error e, fs)
    | (.ok (), fs) => writeShares data rest (pos + share.amount) fs

section

variable {offset stop start base : ℤ} {slices : List FileSlice}

theorem Visited.readLoop (h : Visited stop slices start) (fs : Files) :
    DiskStorage.readLoop fs slices start (stop - start) = readShares fs (shares stop slices start) := by
  induction h with
  | nil => rfl
  | @last path base length rest start hbase hlast =>
    have hinto : max 0 (start - base) = start - base := by omega
    have hread : min (stop - start) (length - (start - base)) = stop - start := by omega
    rw [shares_last hlast, readShares, DiskStorage.readLoop]
    dsimp only
    rw [hinto, hread, zero_add]
    cases syncRead fs path (start - base) (stop - start) with
    | error e => rfl
    | ok data =>
      have hdone : stop - start - (stop - start) ≤ 0 := by omega
      exact (if_pos hdone).trans (congrArg Except.ok (List.append_nil data).symm)
  | @cons path base length rest start hbase hgoes _ ih =>
    have hinto : max 0 (start - base) = start - base := by omega
    have hread : min (stop - start) (length - (start - base)) = base + length - start := by omega
    have hnext : start + (base + length - start) = base + length := by omega
    have hleft : stop - start - (base + length - start) = stop - (base + length) := by omega
    have hmore : ¬ stop - (base + length) ≤ 0 := by omega
    rw [shares_goes hgoes, readShares, DiskStorage.readLoop]
    dsimp only
    rw [hinto, hread, zero_add, hnext, hleft, ih]
    cases syncRead fs path (start - base) (base + length - start) with
    | error e => rfl
    | ok data => exact if_neg hmore

theorem Visited.writeLoop (h : Visited stop slices start) (data : Bytes) (pos : ℤ) (fs : Files) :
    DiskStorage.writeLoop data slices start pos (stop - start) fs =
      writeShares data (shares stop slices start) pos fs := by
  induction h generalizing pos fs with
  | nil => rfl
  | @last path base length rest start hbase hlast =>
    have hinto : max 0 (start - base) = start - base := by omega
    have hwrite : min (stop - start) (length - (start - base)) = stop - start := by omega
    rw [shares_last hlast, writeShares, DiskStorage.writeLoop]
    dsimp only
    rw [hinto, hwrite, zero_add]
    cases syncWrite fs path (start - base) (pySlice data pos (pos + (stop - start))) with
    | mk r fs' =>
      cases r with
      | error e => rfl
      | ok u =>
        have hdone : stop - start - (stop - start) ≤ 0 := by omega
        exact if_pos hdone
  | @cons path base length rest start hbase hgoes _ ih =>
    have hinto : max 0 (start - base) = start - base := by omega
    have hwrite : min (stop - start) (length - (start - base)) = base + length - start := by omega
    have hnext : start + (base + length - start) = base + length := by omega
    have hleft : stop - start - (base + length - start) = stop - (base + length) := by omega
    have hmore : ¬ stop - (base + length) ≤ 0 := by omega
    rw [shares_goes hgoes, writeShares, DiskStorage.writeLoop]
    dsimp only
    rw [hinto, hwrite, zero_add, hnext, hleft]
    cases syncWrite fs path (start - base) (pySlice data pos (pos + (base + length - start))) with
    | mk r fs' =>
      cases r with
      | error e => rfl
      | ok u =>
        dsimp only
        rw [if_neg hmore, ih]

end

section

variable {st : DiskStorage} {offset length : ℤ}

theorem visited_slicesFor (h : Chained 0 st.slices) (hoffset : 0 ≤ offset) (hlength : 0 ≤ length) :
    Visited (offset + length) (st.slicesFor offset length) offset :=
  h.visited le_rfl (by omega) (Or.inl hoffset)

theorem read_eq (h : Chained 0 st.slices) (hoffset : 0 ≤ offset) (hlength : 0 ≤ length)
    (fs : Files) : st.read fs offset length = readShares fs (sharesOf st offset length) := by
  have hloop := (visited_slicesFor h hoffset hlength).readLoop fs
  rwa [add_sub_cancel_left] at hloop

theorem write_eq (h : Chained 0 st.slices) (hoffset : 0 ≤ offset) (data : Bytes) (fs : Files) :
    st.write fs offset data = writeShares data (sharesOf st offset data.length) 0 fs := by
  have hloop := (visited_slicesFor h hoffset (Int.natCast_nonneg data.length)).writeLoop data 0 fs
  rwa [add_sub_cancel_left] at hloop

theorem covers_iff (h : Chained 0 st.slices) (hoffset : 0 ≤ offset) (hlength : 0 < length) :
    Covers st (offset + length) ↔
      ∃ sl ∈ st.slicesFor offset length, offset + length ≤ sliceStop sl := by
  constructor
  · intro hcover
    obtain ⟨sl, hm, hfront, hreach⟩ := h.met (by omega) hcover
    refine ⟨sl, List.mem_filter.mpr ⟨hm, ?_⟩, hreach⟩
    rw [sliceStop] at hreach
    rw [DiskStorage.overlaps, decide_eq_true_eq]
    omega
  · rintro ⟨sl, hm, hreach⟩
    exact ⟨sl, List.mem_of_mem_filter hm, hreach⟩

/-- The shares of a range are as long as the range exactly where the files cover its end. -/
theorem total_eq_iff (h : Chained 0 st.slices) (hoffset : 0 ≤ offset) (hlength : 0 < length) :
    ((sharesOf st offset length).map Share.amount).sum = length ↔ Covers st (offset + length) := by
  have hvisited := visited_slicesFor h hoffset hlength.le
  rw [covers_iff h hoffset hlength, sharesOf]
  constructor
  · intro htotal
    by_contra hcover
    have hlt := hvisited.total_lt (by omega) hcover
    omega
  · intro hcover
    rw [hvisited.total hcover, add_sub_cancel_left]

end

structure Readable (fs : Files) (share : Share) : Prop where
  no_null : hasNull share.path = false
  fileOffset : 0 ≤ share.fileOffset
  amount : 0 ≤ share.amount
  held : ∃ content, fs.node (fs.locate share.path) = some (.file content) ∧
    share.amount ≤ (content.drop share.fileOffset.toNat).length

section

variable {fs : Files} {parts : List Share} {share : Share} {data : Bytes}

theorem syncRead_length {path : PurePath} {offset length : ℤ}
    (h : syncRead fs path offset length = .ok data) : (data.length : ℤ) = length := by
  unfold syncRead at h
  split_ifs at h
  split at h
  · cases h
  · cases h
  · next content _ =>
    cases hread : readAt content offset length with
    | error e =>
      rw [hread] at h
      cases h
    | ok got =>
      rw [hread] at h
      change (if _ then _ else _) = _ at h
      split_ifs at h with hshort
      obtain rfl := Except.ok.inj h
      exact not_not.mp hshort

theorem syncRead_ok_iff :
    (∃ data, syncRead fs share.path share.fileOffset share.amount = .ok data) ↔
      Readable fs share := by
  constructor
  · rintro ⟨data, h⟩
    have hlength := syncRead_length h
    unfold syncRead at h
    split_ifs at h with hnull
    split at h
    · cases h
    · cases h
    · next content hfile =>
      cases hread : readAt content share.fileOffset share.amount with
      | error e =>
        rw [hread] at h
        cases h
      | ok got =>
        rw [hread] at h
        change (if _ then _ else _) = _ at h
        split_ifs at h
        obtain rfl := Except.ok.inj h
        unfold readAt at hread
        split_ifs at hread with hoffset hamount
        · omega
        · obtain rfl := Except.ok.inj hread
          refine ⟨Bool.eq_false_of_not_eq_true hnull, by omega, by omega, content, hfile, ?_⟩
          rw [List.length_take] at hlength
          omega
  · rintro ⟨hnull, hoffset, hamount, content, hfile, hheld⟩
    have hlength : (((content.drop share.fileOffset.toNat).take share.amount.toNat).length : ℤ) =
        share.amount := by
      rw [List.length_take]
      omega
    refine ⟨(content.drop share.fileOffset.toNat).take share.amount.toNat, ?_⟩
    rw [syncRead, hnull, hfile]
    simp only [Bool.false_eq_true, if_false, readAt, if_neg (not_lt.mpr hoffset),
      if_neg (not_lt.mpr hamount)]
    exact if_neg (not_not.mpr hlength)

theorem readShares_cons_ok_iff {rest : List Share} :
    readShares fs (share :: rest) = .ok data ↔ ∃ front chunks,
      syncRead fs share.path share.fileOffset share.amount = .ok front ∧
        readShares fs rest = .ok chunks ∧ data = front ++ chunks := by
  rw [readShares]
  constructor
  · intro h
    cases hfront : syncRead fs share.path share.fileOffset share.amount with
    | error e =>
      rw [hfront] at h
      cases h
    | ok front =>
      cases hrest : readShares fs rest with
      | error e =>
        rw [hfront, hrest] at h
        cases h
      | ok chunks =>
        rw [hfront, hrest] at h
        exact ⟨front, chunks, rfl, rfl, (Except.ok.inj h).symm⟩
  · rintro ⟨front, chunks, hfront, hrest, rfl⟩
    rw [hfront, hrest]
    rfl

theorem readShares_length (h : readShares fs parts = .ok data) :
    (data.length : ℤ) = (parts.map Share.amount).sum := by
  induction parts generalizing data with
  | nil =>
    obtain rfl := Except.ok.inj h
    rfl
  | cons share rest ih =>
    obtain ⟨front, chunks, hfront, hrest, rfl⟩ := readShares_cons_ok_iff.mp h
    rw [List.map_cons, List.sum_cons, ← syncRead_length hfront, ← ih hrest, List.length_append]
    exact Nat.cast_add _ _

theorem readShares_ok_iff :
    (∃ data, readShares fs parts = .ok data) ↔ ∀ share ∈ parts, Readable fs share := by
  induction parts with
  | nil => exact iff_of_true ⟨[], rfl⟩ (List.forall_mem_nil _)
  | cons share rest ih =>
    rw [List.forall_mem_cons, ← ih, ← syncRead_ok_iff]
    constructor
    · rintro ⟨data, h⟩
      obtain ⟨front, chunks, hfront, hrest, -⟩ := readShares_cons_ok_iff.mp h
      exact ⟨⟨front, hfront⟩, chunks, hrest⟩
    · rintro ⟨⟨front, hfront⟩, chunks, hrest⟩
      exact ⟨_, readShares_cons_ok_iff.mpr ⟨front, chunks, hfront, hrest, rfl⟩⟩

/-- A read is exact exactly where the files cover the range, or a share of it cannot be read. -/
theorem read_exact_iff {st : DiskStorage} (h : Chained 0 st.slices) {offset length : ℤ}
    (hoffset : 0 ≤ offset) (hlength : 0 ≤ length) (fs : Files) :
    (∀ data, st.read fs offset length = .ok data → (data.length : ℤ) = length) ↔
      length = 0 ∨ Covers st (offset + length) ∨
        ∃ share ∈ sharesOf st offset length, ¬ Readable fs share := by
  rw [read_eq h hoffset hlength]
  constructor
  · intro hexact
    by_contra! hnot
    obtain ⟨hne, hcover, hreadable⟩ := hnot
    obtain ⟨data, hdata⟩ := readShares_ok_iff.mpr hreadable
    refine hcover ((total_eq_iff h hoffset (by omega)).mp ?_)
    rw [← readShares_length hdata, hexact data hdata]
  · intro hcases data hdata
    have htotal := readShares_length hdata
    rcases hlength.eq_or_lt with rfl | hpos
    · have hle := (visited_slicesFor h hoffset le_rfl).total_le (by omega)
      rw [sharesOf] at htotal
      omega
    · rcases hcases with rfl | hcover | ⟨share, hm, hunreadable⟩
      · exact absurd hpos (lt_irrefl _)
      · rw [htotal, (total_eq_iff h hoffset hpos).mpr hcover]
      · exact absurd (readShares_ok_iff.mp ⟨data, hdata⟩ share hm) hunreadable

end

/-- A path where a file can be opened for writing, or made. -/
structure Writable (fs : Files) (path : PurePath) : Prop where
  no_null : hasNull path = false
  place : (∃ content, fs.node (fs.locate path) = some (.file content)) ∨
    (fs.node (fs.locate path) = none ∧ fs.node (fs.locate path).dropLast = some .dir)

abbrev Place := Location × ℕ

def placeByte (fs : Files) (place : Place) : Option UInt8 :=
  match fs.node place.1 with
  | some (.file content) => content[place.2]?
  | _ => none

def placesOf (fs : Files) (share : Share) : List Place :=
  (List.range share.amount.toNat).map fun k => (fs.locate share.path, share.fileOffset.toNat + k)

def places (fs : Files) (parts : List Share) : List Place := parts.flatMap (placesOf fs)

section

variable {fs fs' : Files} {parts : List Share} {share : Share} {data : Bytes} {path : PurePath}
  {content : Bytes}

theorem placeByte_file {loc : Location} (h : fs.node loc = some (.file content)) (i : ℕ) :
    placeByte fs (loc, i) = content[i]? := by
  rw [placeByte, h]

theorem put_put (loc : Location) (n n' : Node) : (fs.put loc n).put loc n' = fs.put loc n' := by
  rw [Files.put, Files.put, Files.put, Function.update_idem]

theorem syncWrite_writable (h : Writable fs path) {offset : ℤ} (hoffset : 0 ≤ offset)
    (data : Bytes) : ∃ content, (fs.node (fs.locate path) = some (.file content) ∨
        (fs.node (fs.locate path) = none ∧ content = [])) ∧
      syncWrite fs path offset data =
        (.ok (), fs.put (fs.locate path) (.file (writeAt content offset.toNat data))) := by
  obtain ⟨hnull, ⟨content, hfile⟩ | ⟨hnone, hparent⟩⟩ := h
  · refine ⟨content, Or.inl hfile, ?_⟩
    rw [syncWrite, hnull]
    simp only [Bool.false_eq_true, if_false, hfile, seekWrite, if_neg (not_lt.mpr hoffset)]
  · refine ⟨[], Or.inr ⟨hnone, rfl⟩, ?_⟩
    rw [syncWrite, hnull]
    simp only [Bool.false_eq_true, if_false, hnone, if_pos hparent, seekWrite,
      if_neg (not_lt.mpr hoffset), put_put]

theorem writable_of_ok {offset : ℤ} (h : syncWrite fs path offset data = (.ok (), fs')) :
    Writable fs path := by
  unfold syncWrite at h
  dsimp only at h
  by_cases hnull : hasNull path = true
  · rw [if_pos hnull] at h
    cases h
  · rw [if_neg hnull] at h
    have hfalse := Bool.eq_false_of_not_eq_true hnull
    split at h
    · next content hfile => exact ⟨hfalse, Or.inl ⟨content, hfile⟩⟩
    · cases h
    · next hnone =>
      split_ifs at h with hparent
      · exact ⟨hfalse, Or.inr ⟨hnone, hparent⟩⟩
      · cases h

/-- Writing to one place does not change where else can be written. -/
theorem Writable.put_iff {other : PurePath} (h : Writable fs path) :
    Writable (fs.put (fs.locate path) (.file content)) other ↔ Writable fs other := by
  have hnotDir : fs.node (fs.locate path) ≠ some .dir := by
    rcases h.place with ⟨content, hfile⟩ | ⟨hnone, -⟩
    · rw [hfile]
      rintro ⟨⟩
    · rw [hnone]
      rintro ⟨⟩
  have hdir : ∀ loc, (fs.put (fs.locate path) (.file content)).node loc = some .dir ↔
      fs.node loc = some .dir := by
    intro loc
    by_cases hloc : loc = fs.locate path
    · rw [hloc, put_node_self]
      exact iff_of_false (by rintro ⟨⟩) hnotDir
    · rw [put_node_of_ne hloc]
  by_cases hloc : fs.locate other = fs.locate path
  · constructor
    · intro hother
      exact ⟨hother.no_null, hloc ▸ h.place⟩
    · intro hother
      exact ⟨hother.no_null, Or.inl ⟨content, by rw [locate_put, hloc, put_node_self]⟩⟩
  · constructor
    · rintro ⟨hnull, hplace⟩
      rw [locate_put, put_node_of_ne hloc, hdir] at hplace
      exact ⟨hnull, hplace⟩
    · rintro ⟨hnull, hplace⟩
      refine ⟨hnull, ?_⟩
      rwa [locate_put, put_node_of_ne hloc, hdir]

theorem syncWrite_applied {offset : ℕ}
    (h : syncWrite fs path offset data = (.ok (), fs')) :
    Applied (placeByte fs)
      (((List.range data.length).map fun k => (fs.locate path, offset + k)).zip data)
      (placeByte fs') := by
  obtain ⟨content, hold, hwrite⟩ := syncWrite_writable (writable_of_ok h) (Int.natCast_nonneg offset)
    data
  obtain rfl := congrArg Prod.snd (hwrite.symm.trans h)
  rw [Int.toNat_natCast]
  rintro ⟨loc, i⟩ b hb
  cases hlast : last (loc, i)
      (((List.range data.length).map fun k => (fs.locate path, offset + k)).zip data) with
  | some b' =>
    rw [hlast, Option.some_or] at hb
    obtain rfl := Option.some.inj hb
    obtain ⟨k, hk, hpair⟩ := List.mem_iff_getElem.mp (mem_of_last hlast)
    rw [List.getElem_zip, List.getElem_map, List.getElem_range] at hpair
    have hlt : k < data.length := by
      rw [List.length_zip, List.length_map, List.length_range] at hk
      omega
    obtain ⟨hplace, rfl⟩ := Prod.mk.inj hpair
    obtain ⟨rfl, rfl⟩ := Prod.mk.inj hplace
    rw [placeByte_file (put_node_self ..), writeAt_getElem?_inside hlt,
      List.getElem?_eq_getElem hlt]
  | none =>
    rw [hlast, Option.none_or] at hb
    by_cases hloc : loc = fs.locate path
    · subst hloc
      rcases hold with hfile | ⟨hnone, -⟩
      · rw [placeByte_file hfile] at hb
        rw [placeByte_file (put_node_self ..)]
        refine writeAt_getElem?_outside ?_ hb
        by_contra! hin
        have hk : i - offset < data.length := by omega
        have hmem : ((fs.locate path, i), data[i - offset]) ∈
            ((List.range data.length).map fun k => (fs.locate path, offset + k)).zip data := by
          refine List.mem_iff_getElem.mpr ⟨i - offset, by simpa using hk, ?_⟩
          rw [List.getElem_zip, List.getElem_map, List.getElem_range, Nat.add_sub_cancel' hin.1]
        exact last_eq_none hlast _ hmem rfl
      · rw [placeByte] at hb
        simp only [hnone] at hb
        cases hb
    · rw [placeByte, put_node_of_ne hloc]
      exact hb

theorem writeShares_cons_ok_iff {rest : List Share} {pos : ℤ} :
    writeShares data (share :: rest) pos fs = (.ok (), fs') ↔ ∃ fs₁,
      syncWrite fs share.path share.fileOffset (pySlice data pos (pos + share.amount)) =
        (.ok (), fs₁) ∧ writeShares data rest (pos + share.amount) fs₁ = (.ok (), fs') := by
  rw [writeShares]
  constructor
  · intro h
    split at h
    · cases h
    · next fs₁ hfirst => exact ⟨fs₁, hfirst, h⟩
  · rintro ⟨fs₁, hfirst, hrest⟩
    rw [hfirst]
    exact hrest

theorem writeShares_ok_iff (fs : Files) (data : Bytes) (pos : ℤ)
    (hoffset : ∀ share ∈ parts, 0 ≤ share.fileOffset) :
    (∃ fs', writeShares data parts pos fs = (.ok (), fs')) ↔
      ∀ share ∈ parts, Writable fs share.path := by
  induction parts generalizing fs pos with
  | nil => exact iff_of_true ⟨fs, rfl⟩ (List.forall_mem_nil _)
  | cons share rest ih =>
    obtain ⟨hhead, htail⟩ := List.forall_mem_cons.mp hoffset
    rw [List.forall_mem_cons]
    have hstep : ∀ hw : Writable fs share.path, ∃ fs₁,
        syncWrite fs share.path share.fileOffset (pySlice data pos (pos + share.amount)) =
          (.ok (), fs₁) ∧ ∀ path, Writable fs₁ path ↔ Writable fs path := by
      intro hw
      obtain ⟨content, -, hwrite⟩ := syncWrite_writable hw hhead
        (pySlice data pos (pos + share.amount))
      exact ⟨_, hwrite, fun path => hw.put_iff⟩
    constructor
    · rintro ⟨fs', h⟩
      obtain ⟨fs₁, hfirst, hrest⟩ := writeShares_cons_ok_iff.mp h
      have hw := writable_of_ok hfirst
      obtain ⟨fs₁', hfirst', hsame⟩ := hstep hw
      obtain rfl := congrArg Prod.snd (hfirst.symm.trans hfirst')
      exact ⟨hw, fun share hm => (hsame _).mp ((ih _ _ htail).mp ⟨fs', hrest⟩ share hm)⟩
    · rintro ⟨hw, hall⟩
      obtain ⟨fs₁, hfirst, hsame⟩ := hstep hw
      obtain ⟨fs', hrest⟩ := (ih fs₁ (pos + share.amount) htail).mpr
        fun share hm => (hsame _).mpr (hall share hm)
      exact ⟨fs', writeShares_cons_ok_iff.mpr ⟨fs₁, hfirst, hrest⟩⟩

def IsFile (fs : Files) (share : Share) : Prop :=
  hasNull share.path = false ∧ ∃ content, fs.node (fs.locate share.path) = some (.file content)

theorem syncWrite_isFile {offset : ℤ} (hoffset : 0 ≤ offset)
    (h : syncWrite fs path offset data = (.ok (), fs')) :
    fs'.cwd = fs.cwd ∧ (∀ part, part.path = path ∨ IsFile fs part → IsFile fs' part) := by
  have hw := writable_of_ok h
  obtain ⟨content, -, hwrite⟩ := syncWrite_writable hw hoffset data
  obtain rfl := congrArg Prod.snd (hwrite.symm.trans h)
  refine ⟨rfl, fun part hpart => ?_⟩
  by_cases hloc : fs.locate part.path = fs.locate path
  · refine ⟨?_, _, by rw [locate_put, hloc, put_node_self]⟩
    rcases hpart with hpath | hfile
    · rw [hpath]
      exact hw.no_null
    · exact hfile.1
  · rcases hpart with hpath | ⟨hnull, old, hfile⟩
    · exact absurd (by rw [hpath]) hloc
    · exact ⟨hnull, old, by rw [locate_put, put_node_of_ne hloc, hfile]⟩

theorem length_placesOf : (placesOf fs share).length = share.amount.toNat := by
  rw [placesOf, List.length_map, List.length_range]

theorem placesOf_congr (hcwd : fs'.cwd = fs.cwd) : placesOf fs' share = placesOf fs share := by
  rw [placesOf, placesOf, Files.locate, Files.locate, hcwd]

theorem places_congr (hcwd : fs'.cwd = fs.cwd) : places fs' parts = places fs parts := by
  rw [places, places]
  exact List.flatMap_congr fun share _ => placesOf_congr hcwd

theorem writeShares_applied (hoffset : ∀ share ∈ parts, 0 ≤ share.fileOffset)
    (hamount : ∀ share ∈ parts, 0 ≤ share.amount) {pos : ℕ}
    (hlength : pos + (places fs parts).length ≤ data.length)
    (h : writeShares data parts pos fs = (.ok (), fs')) :
    fs'.cwd = fs.cwd ∧ (∀ share, share ∈ parts ∨ IsFile fs share → IsFile fs' share) ∧
      Applied (placeByte fs) ((places fs parts).zip (data.drop pos)) (placeByte fs') := by
  induction parts generalizing fs pos with
  | nil =>
    obtain rfl := congrArg Prod.snd h
    refine ⟨rfl, fun share hshare => ?_, Applied.nil _⟩
    exact hshare.resolve_left List.not_mem_nil
  | cons share rest ih =>
    obtain ⟨hoff, hoffs⟩ := List.forall_mem_cons.mp hoffset
    obtain ⟨ham, hams⟩ := List.forall_mem_cons.mp hamount
    obtain ⟨fs₁, hfirst, hrest⟩ := writeShares_cons_ok_iff.mp h
    obtain ⟨hcwd, hfiles⟩ := syncWrite_isFile hoff hfirst
    have hsplit : places fs (share :: rest) = placesOf fs share ++ places fs rest := rfl
    rw [hsplit, List.length_append, length_placesOf] at hlength
    obtain ⟨n, hn⟩ := Int.eq_ofNat_of_zero_le ham
    obtain ⟨o, ho⟩ := Int.eq_ofNat_of_zero_le hoff
    rw [hn, Int.toNat_natCast] at hlength
    rw [hn, ho, chunk_eq] at hfirst
    rw [hn, ← Nat.cast_add] at hrest
    have hplaces : places fs₁ rest = places fs rest := places_congr hcwd
    obtain ⟨hcwd', hfiles', happlied⟩ := ih hoffs hams (by rw [hplaces]; omega) hrest
    refine ⟨hcwd'.trans hcwd, fun part hpart => hfiles' part ?_, ?_⟩
    · rcases hpart with hmem | hfile
      · rcases List.mem_cons.mp hmem with rfl | hmem
        · exact Or.inr (hfiles _ (Or.inl rfl))
        · exact Or.inl hmem
      · exact Or.inr (hfiles _ (Or.inr hfile))
    · have hchunk : ((data.drop pos).take n).length = n := by
        rw [List.length_take, List.length_drop]
        omega
      have hhead : placesOf fs share =
          (List.range ((data.drop pos).take n).length).map fun k => (fs.locate share.path, o + k) := by
        rw [placesOf, hn, ho, hchunk, Int.toNat_natCast, Int.toNat_natCast]
      have hdata : data.drop pos = (data.drop pos).take n ++ data.drop (pos + n) := by
        rw [← List.drop_drop, List.take_append_drop]
      rw [hsplit, hdata, List.zip_append (by rw [length_placesOf, hn, hchunk, Int.toNat_natCast])]
      rw [hplaces] at happlied
      exact (hhead ▸ syncWrite_applied hfirst).append happlied

end

section

variable {fs fs' : Files} {parts : List Share} {share : Share} {data : Bytes}

theorem map_range_getElem? {l : Bytes} {n : ℕ} :
    ((List.range n).map fun k => l[k]?) = data.map some ↔ l.take n = data ∧ data.length = n := by
  constructor
  · intro h
    have hlength : data.length = n := by
      have := congrArg List.length h
      rw [List.length_map, List.length_range, List.length_map] at this
      exact this.symm
    refine ⟨List.ext_getElem? fun k => ?_, hlength⟩
    by_cases hk : k < n
    · have hk' : k < data.length := by omega
      have hat := congrArg (fun l => l[k]?) h
      simp only [List.getElem?_map, List.getElem?_range hk, Option.map_some,
        List.getElem?_eq_getElem hk'] at hat
      rw [List.getElem?_take_of_lt hk, List.getElem?_eq_getElem hk']
      exact Option.some.inj hat
    · rw [List.getElem?_eq_none (by rw [List.length_take]; omega),
        List.getElem?_eq_none (by omega)]
  · rintro ⟨rfl, hlength⟩
    rw [List.length_take] at hlength
    refine List.ext_getElem (by simpa using hlength.symm) fun k hk _ => ?_
    rw [List.length_map, List.length_range] at hk
    rw [List.getElem_map, List.getElem_map, List.getElem_range, List.getElem_take,
      List.getElem?_eq_getElem (by omega)]

theorem syncRead_places_iff (hfile : IsFile fs share) (hoffset : 0 ≤ share.fileOffset)
    (hamount : 0 ≤ share.amount) :
    syncRead fs share.path share.fileOffset share.amount = .ok data ↔
      (placesOf fs share).map (placeByte fs) = data.map some := by
  obtain ⟨hnull, content, hnode⟩ := hfile
  have hbytes : (placesOf fs share).map (placeByte fs) =
      (List.range share.amount.toNat).map fun k => (content.drop share.fileOffset.toNat)[k]? := by
    rw [placesOf, List.map_map]
    refine List.map_congr_left fun k _ => ?_
    rw [Function.comp_apply, placeByte_file hnode, List.getElem?_drop]
  have hread : syncRead fs share.path share.fileOffset share.amount =
      (if (((content.drop share.fileOffset.toNat).take share.amount.toNat).length : ℤ) ≠ share.amount
        then .error (.shortRead share.amount
          ((content.drop share.fileOffset.toNat).take share.amount.toNat).length)
        else .ok ((content.drop share.fileOffset.toNat).take share.amount.toNat)) := by
    rw [syncRead, hnull, hnode]
    simp only [Bool.false_eq_true, if_false, readAt, if_neg (not_lt.mpr hoffset),
      if_neg (not_lt.mpr hamount)]
    rfl
  rw [hread, hbytes, map_range_getElem?]
  constructor
  · intro h
    split_ifs at h with hshort
    obtain rfl := Except.ok.inj h
    exact ⟨rfl, by omega⟩
  · rintro ⟨rfl, hlength⟩
    rw [if_neg (by omega)]

theorem readShares_places_iff (hfile : ∀ share ∈ parts, IsFile fs share)
    (hoffset : ∀ share ∈ parts, 0 ≤ share.fileOffset) (hamount : ∀ share ∈ parts, 0 ≤ share.amount) :
    readShares fs parts = .ok data ↔ (places fs parts).map (placeByte fs) = data.map some := by
  induction parts generalizing data with
  | nil =>
    constructor
    · intro h
      obtain rfl := Except.ok.inj h
      rfl
    · intro h
      exact congrArg Except.ok (List.map_eq_nil_iff.mp h.symm).symm
  | cons share rest ih =>
    obtain ⟨hf, hfs⟩ := List.forall_mem_cons.mp hfile
    obtain ⟨hoff, hoffs⟩ := List.forall_mem_cons.mp hoffset
    obtain ⟨ham, hams⟩ := List.forall_mem_cons.mp hamount
    have hsplit : places fs (share :: rest) = placesOf fs share ++ places fs rest := rfl
    rw [readShares_cons_ok_iff, hsplit, List.map_append, List.append_eq_map_iff]
    constructor
    · rintro ⟨front, chunks, hfront, hrest, rfl⟩
      exact ⟨front, chunks, rfl, ((syncRead_places_iff hf hoff ham).mp hfront).symm,
        ((ih hfs hoffs hams).mp hrest).symm⟩
    · rintro ⟨front, chunks, rfl, hfront, hrest⟩
      exact ⟨front, chunks, (syncRead_places_iff hf hoff ham).mpr hfront.symm,
        (ih hfs hoffs hams).mpr hrest.symm, rfl⟩

theorem map_eq_map_some_iff {f : Place → Option UInt8} {spots : List Place}
    (h : spots.length = data.length) :
    spots.map f = data.map some ↔ ∀ p ∈ spots.zip data, f p.1 = some p.2 := by
  rw [← List.forall₂_eq_eq_eq, List.forall₂_map_left_iff, List.forall₂_map_right_iff,
    List.forall₂_iff_zip]
  exact ⟨fun hall p hp => hall.2 hp, fun hall => ⟨h, fun hp => hall _ hp⟩⟩

/-- Bytes of the data that differ belong to different bytes of the files. -/
def Consistent (fs : Files) (parts : List Share) (data : Bytes) : Prop :=
  Functional ((places fs parts).zip data)

theorem length_places (fs : Files) (hamount : ∀ share ∈ parts, 0 ≤ share.amount) :
    ((places fs parts).length : ℤ) = (parts.map Share.amount).sum := by
  induction parts with
  | nil => rfl
  | cons share rest ih =>
    obtain ⟨ham, hams⟩ := List.forall_mem_cons.mp hamount
    have hsplit : places fs (share :: rest) = placesOf fs share ++ places fs rest := rfl
    rw [hsplit, List.length_append, length_placesOf, List.map_cons, List.sum_cons, ← ih hams]
    omega

/-- What was written can be read where the shares are as long as the data and do not contradict. -/
theorem readShares_written_iff (hoffset : ∀ share ∈ parts, 0 ≤ share.fileOffset)
    (hamount : ∀ share ∈ parts, 0 ≤ share.amount)
    (htotal : (parts.map Share.amount).sum = data.length)
    (h : writeShares data parts 0 fs = (.ok (), fs')) :
    readShares fs' parts = .ok data ↔ Consistent fs parts data := by
  have hlength : (places fs parts).length = data.length := by
    have := length_places fs hamount
    omega
  obtain ⟨hcwd, hfiles, happlied⟩ := writeShares_applied hoffset hamount
    (by rw [Nat.zero_add, hlength]) h
  rw [readShares_places_iff (fun share hm => hfiles share (Or.inl hm)) hoffset hamount,
    places_congr hcwd, map_eq_map_some_iff hlength, Consistent]
  exact happlied.all_there_iff

end

def WriteCovered (st : DiskStorage) (fs : Files) (offset : ℤ) (data : Bytes) : Prop :=
  data = [] ∨ (∃ share ∈ sharesOf st offset data.length, ¬ Writable fs share.path) ∨
    (Covers st (offset + data.length) ∧
      (∀ share ∈ sharesOf st offset data.length, 0 ≤ share.amount) ∧
      Consistent fs (sharesOf st offset data.length) data)

def ReadCovered (st : DiskStorage) (fs : Files) (offset length : ℤ) : Prop :=
  length = 0 ∨ Covers st (offset + length) ∨
    ∃ share ∈ sharesOf st offset length, ¬ Readable fs share

theorem amount_empty (st : DiskStorage) (offset : ℤ) : ∀ share ∈ sharesOf st offset 0, share.amount = 0 := by
  rw [sharesOf]
  cases hvisited : st.slicesFor offset 0 with
  | nil => exact fun share hm => absurd hm List.not_mem_nil
  | cons sl rest =>
    have hm : sl ∈ st.slicesFor offset 0 := hvisited ▸ List.mem_cons_self
    have hover := (List.mem_filter.mp hm).2
    rw [DiskStorage.overlaps, decide_eq_true_eq] at hover
    have hlast : offset + 0 ≤ sliceStop sl := by
      rw [sliceStop]
      omega
    rw [shares, if_pos hlast, min_eq_left hlast]
    exact List.forall_mem_singleton.mpr (by dsimp only; omega)

/-- Data that was written is read back exactly under these conditions. -/
theorem write_kept_iff {st : DiskStorage} (h : Chained 0 st.slices) {offset : ℤ}
    (hoffset : 0 ≤ offset) (fs : Files) (data : Bytes) :
    (∀ fs', st.write fs offset data = (.ok (), fs') →
        st.read fs' offset data.length = .ok data) ↔ WriteCovered st fs offset data := by
  have hvisited := visited_slicesFor h hoffset (Int.natCast_nonneg data.length)
  have hoffs := hvisited.fileOffset_nonneg
  simp only [read_eq h hoffset (Int.natCast_nonneg data.length), write_eq h hoffset]
  constructor
  · intro hkept
    rw [WriteCovered, or_iff_not_imp_left, or_iff_not_imp_left]
    intro hne hwritable
    simp only [not_exists, not_and, not_not] at hwritable
    obtain ⟨fs', hwrite⟩ := (writeShares_ok_iff fs data 0 hoffs).mpr hwritable
    have hread := hkept fs' hwrite
    have hamount : ∀ share ∈ sharesOf st offset data.length, 0 ≤ share.amount := fun share hm =>
      (readShares_ok_iff.mp ⟨data, hread⟩ share hm).amount
    have htotal := (readShares_length hread).symm
    have hpos : 0 < (data.length : ℤ) := by
      have := List.length_pos_iff.mpr hne
      omega
    exact ⟨(total_eq_iff h hoffset hpos).mp htotal, hamount,
      (readShares_written_iff hoffs hamount htotal hwrite).mp hread⟩
  · rintro hcases fs' hwrite
    by_cases hnil : data = []
    · subst hnil
      have hzero : ∀ share ∈ sharesOf st offset ([] : Bytes).length, share.amount = 0 :=
        amount_empty st offset
      have hamount : ∀ share ∈ sharesOf st offset ([] : Bytes).length, 0 ≤ share.amount :=
        fun share hm => (hzero share hm).ge
      have htotal : ((sharesOf st offset ([] : Bytes).length).map Share.amount).sum =
          (([] : Bytes).length : ℤ) := List.sum_eq_zero fun n hn => by
        obtain ⟨share, hm, rfl⟩ := List.mem_map.mp hn
        exact hzero share hm
      refine (readShares_written_iff hoffs hamount htotal hwrite).mpr ?_
      rw [Consistent, List.zip_nil_right]
      exact fun p hp => absurd hp List.not_mem_nil
    · have hpos := List.length_pos_iff.mpr hnil
      rcases hcases with hnil' | ⟨share, hm, hnot⟩ | ⟨hcover, hamount, hconsistent⟩
      · exact absurd hnil' hnil
      · exact absurd ((writeShares_ok_iff _ _ 0 hoffs).mp ⟨fs', hwrite⟩ share hm) hnot
      · have htotal := (total_eq_iff h hoffset (Int.natCast_pos.mpr hpos)).mpr hcover
        exact (readShares_written_iff hoffs hamount htotal hwrite).mpr hconsistent

/-- Nothing is read short, and nothing is written in part, without an error. -/
structure Exact (disk : DiskStorage) (compact : CompactStorage) (fs : Files) (offset length : ℤ)
    (data : Bytes) : Prop where
  diskRead : ∀ got, disk.read fs offset length = .ok got → (got.length : ℤ) = length
  compactRead : ∀ got, compact.read fs offset length = .ok got → (got.length : ℤ) = length
  diskWrite : ∀ fs', disk.write fs offset data = (.ok (), fs') →
    disk.read fs' offset data.length = .ok data

theorem compact_read_length {compact : CompactStorage} {fs : Files} {offset length : ℤ}
    {got : Bytes} (h : compact.read fs offset length = .ok got) : (got.length : ℤ) = length := by
  unfold CompactStorage.read at h
  split at h
  · cases h
  · next path _ =>
    cases hread : syncRead fs path offset length with
    | error e =>
      rw [hread] at h
      cases h
    | ok data =>
      rw [hread] at h
      obtain rfl := Except.ok.inj h
      exact syncRead_length hread

/-- After any preparation, with whatever the files have become. -/
theorem exact_iff {st disk : DiskStorage} {files : Option (List FileEntry)} {name : PyStr}
    {fs₀ fs₁ : Files} (h : st.prepareFiles files name fs₀ = (.ok (), disk, fs₁))
    (compact : CompactStorage) (fs : Files) {offset length : ℤ} (hoffset : 0 ≤ offset)
    (hlength : 0 ≤ length) (data : Bytes) :
    Exact disk compact fs offset length data ↔
      ReadCovered disk fs offset length ∧ WriteCovered disk fs offset data := by
  have hchained := chained_of_prepared h
  constructor
  · rintro ⟨hread, -, hwrite⟩
    exact ⟨(read_exact_iff hchained hoffset hlength fs).mp hread,
      (write_kept_iff hchained hoffset fs data).mp hwrite⟩
  · rintro ⟨hread, hwrite⟩
    exact ⟨(read_exact_iff hchained hoffset hlength fs).mpr hread,
      fun got hgot => compact_read_length hgot,
      (write_kept_iff hchained hoffset fs data).mpr hwrite⟩

def lone : Except OsError Unit × DiskStorage × Files :=
  ((DiskStorage.new [47]).opened 3 1).prepareFiles none [102] ⟨[], fun _ => none⟩

theorem exact_inside :
    lone.1 = .ok () ∧ Exact lone.2.1 (CompactStorage.new [47]) lone.2.2 1 2 [7, 8] := by
  have hprepared : lone = (.ok (), lone.2.1, lone.2.2) := rfl
  have hcovers : Covers lone.2.1 3 := ⟨⟨⟨.slash, [[102]]⟩, 0, 0, 3⟩, by decide, by decide⟩
  have hconsistent : Consistent lone.2.2 (sharesOf lone.2.1 1 2) [7, 8] := by
    unfold Consistent Functional
    decide
  exact ⟨rfl, (exact_iff hprepared _ _ (by decide) (by decide) _).mpr
    ⟨Or.inr (Or.inl hcovers), Or.inr (Or.inr ⟨hcovers, by decide, hconsistent⟩)⟩⟩

/-- A range across the end gives the byte before the end, a range behind it gives nothing, and what
is written across the end is cut there. -/
theorem end_passed_silently :
    lone.1 = .ok () ∧ lone.2.1.read lone.2.2 2 5 = .ok [0] ∧ lone.2.1.read lone.2.2 7 2 = .ok [] ∧
      (lone.2.1.write lone.2.2 2 [1, 2, 3, 4, 5]).1 = .ok () ∧
      lone.2.1.read (lone.2.1.write lone.2.2 2 [1, 2, 3, 4, 5]).2 2 5 = .ok [1] ∧
      ∀ compact, ¬ Exact lone.2.1 compact lone.2.2 2 5 [1, 2, 3, 4, 5] := by
  have hread : lone.2.1.read lone.2.2 2 5 = .ok [0] := by decide
  refine ⟨by decide, hread, by decide, by decide, by decide, fun compact hexact => ?_⟩
  have hlength := hexact.diskRead [0] hread
  revert hlength
  decide

end PartialTransfers
