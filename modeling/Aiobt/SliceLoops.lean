import Aiobt.TorrentStorage

/-! # The slice loops, one pass at a time

`DiskStorage` visits the slices that overlap the range from `offset` to `stop`. When the loop has
come to the slices from `base` on, it continues at `max offset base`. -/
namespace SliceLoops

open ByteStrings PosixPaths FileSystem TorrentStorage

/-- From `base` on, the slices lie next to each other; each starts its own file. -/
inductive Adjacent : ℕ → List FileSlice → Prop
  | nil {base} : Adjacent base []
  | cons {base path length slices} : Adjacent (base + length) slices →
      Adjacent base (⟨path, 0, base, length⟩ :: slices)

def layoutEnd (base : ℕ) (slices : List FileSlice) : ℕ :=
  base + (slices.map fun sl => sl.length.toNat).sum

@[simp] theorem layoutEnd_nil (base : ℕ) : layoutEnd base [] = base := rfl

theorem layoutEnd_cons (base length : ℕ) (path : PurePath) (slices : List FileSlice) :
    layoutEnd base (⟨path, 0, base, length⟩ :: slices) = layoutEnd (base + length) slices := by
  simp [layoutEnd, Nat.add_assoc]

def locations (fs : Files) (slices : List FileSlice) : List Location :=
  slices.map fun sl => fs.locate sl.path

variable {fs : Files} {base length offset stop : ℕ} {slices : List FileSlice} {path : PurePath}

theorem locations_congr {fs' : Files} (hcwd : fs'.cwd = fs.cwd) :
    locations fs' slices = locations fs slices := by
  apply List.map_congr_left
  intro sl _
  rw [Files.locate, Files.locate, hcwd]

theorem Adjacent.torrentOffset_ge (h : Adjacent base slices) :
    ∀ sl ∈ slices, (base : ℤ) ≤ sl.torrentOffset := by
  induction h with
  | nil => simp
  | @cons base path length slices hrest ih =>
    intro sl hm
    rcases List.mem_cons.mp hm with rfl | hm
    · exact le_refl _
    · have := ih sl hm
      push_cast at this
      omega

theorem filter_before (h : base + length ≤ offset) :
    (⟨path, 0, base, length⟩ :: slices).filter (DiskStorage.overlaps offset stop) =
      slices.filter (DiskStorage.overlaps offset stop) := by
  apply List.filter_cons_of_neg
  simp only [DiskStorage.overlaps, decide_eq_true_eq]
  omega

/-- A range that ends before the slices visits none of them. -/
theorem Adjacent.filter_after (h : Adjacent base slices) (hstop : stop ≤ base) :
    slices.filter (DiskStorage.overlaps offset stop) = [] := by
  rw [List.filter_eq_nil_iff]
  intro sl hm hover
  have hge := h.torrentOffset_ge sl hm
  simp only [DiskStorage.overlaps, decide_eq_true_eq] at hover
  omega

theorem filter_inside (h1 : base < stop) (h2 : offset < base + length) :
    (⟨path, 0, base, length⟩ :: slices).filter (DiskStorage.overlaps offset stop) =
      ⟨path, 0, base, length⟩ :: slices.filter (DiskStorage.overlaps offset stop) := by
  apply List.filter_cons_of_pos
  simp only [DiskStorage.overlaps, decide_eq_true_eq]
  omega

/-- A visited slice is read from `max offset base` to the end of the slice or of the range. -/
theorem readLoop_cons (h1 : base < stop) (h2 : offset < base + length) (h3 : offset ≤ stop) :
    DiskStorage.readLoop fs (⟨path, 0, base, length⟩ :: slices) (max offset base : ℕ)
        (stop - max offset base : ℕ) =
      (syncRead fs path (max offset base - base : ℕ)
        (min stop (base + length) - max offset base : ℕ)).bind fun data =>
          if stop ≤ base + length then .ok data
          else (DiskStorage.readLoop fs slices (base + length : ℕ)
            (stop - (base + length) : ℕ)).bind fun chunks => .ok (data ++ chunks) := by
  have hinto : max 0 (((max offset base : ℕ) : ℤ) - (base : ℤ)) =
      ((max offset base - base : ℕ) : ℤ) := by omega
  have hread : min ((stop - max offset base : ℕ) : ℤ)
      ((length : ℤ) - ((max offset base - base : ℕ) : ℤ)) =
      ((min stop (base + length) - max offset base : ℕ) : ℤ) := by omega
  rw [DiskStorage.readLoop]
  simp only [hinto, hread, zero_add, bind]
  congr 1
  funext data
  by_cases hlast : stop ≤ base + length
  · rw [if_pos hlast, if_pos (by omega)]
  · have hnext : ((max offset base : ℕ) : ℤ) +
        ((min stop (base + length) - max offset base : ℕ) : ℤ) = ((base + length : ℕ) : ℤ) := by
      omega
    have hleft : ((stop - max offset base : ℕ) : ℤ) -
        ((min stop (base + length) - max offset base : ℕ) : ℤ) =
        ((stop - (base + length) : ℕ) : ℤ) := by omega
    rw [if_neg hlast, if_neg (by omega), hnext, hleft]

theorem chunk_eq (data : Bytes) (pos n : ℕ) :
    pySlice data pos ((pos : ℤ) + (n : ℤ)) = (data.drop pos).take n := by
  rw [← Nat.cast_add, pySlice_natCast, slice_add]

/-- A visited slice is written from `max offset base` to the end of the slice or of the range. -/
theorem writeLoop_cons {data : Bytes} {pos : ℕ} (h1 : base < stop) (h2 : offset < base + length)
    (h3 : offset ≤ stop) :
    DiskStorage.writeLoop data (⟨path, 0, base, length⟩ :: slices) (max offset base : ℕ) pos
        (stop - max offset base : ℕ) fs =
      match syncWrite fs path (max offset base - base : ℕ)
        ((data.drop pos).take (min stop (base + length) - max offset base)) with
      | (.error e, fs) => (.error e, fs)
      | (.ok (), fs) =>
        if stop ≤ base + length then (.ok (), fs)
        else DiskStorage.writeLoop data slices (base + length : ℕ)
          (pos + (min stop (base + length) - max offset base) : ℕ) (stop - (base + length) : ℕ) fs := by
  have hinto : max 0 (((max offset base : ℕ) : ℤ) - (base : ℤ)) =
      ((max offset base - base : ℕ) : ℤ) := by omega
  have hwrite : min ((stop - max offset base : ℕ) : ℤ)
      ((length : ℤ) - ((max offset base - base : ℕ) : ℤ)) =
      ((min stop (base + length) - max offset base : ℕ) : ℤ) := by omega
  rw [DiskStorage.writeLoop]
  simp only [hinto, hwrite, zero_add, chunk_eq]
  cases syncWrite fs path (max offset base - base : ℕ)
    ((data.drop pos).take (min stop (base + length) - max offset base)) with
  | mk r fs' =>
    cases r with
    | error e => rfl
    | ok u =>
      simp only
      by_cases hlast : stop ≤ base + length
      · rw [if_pos hlast, if_pos (by omega)]
      · have hnext : ((max offset base : ℕ) : ℤ) +
            ((min stop (base + length) - max offset base : ℕ) : ℤ) =
            ((base + length : ℕ) : ℤ) := by omega
        have hleft : ((stop - max offset base : ℕ) : ℤ) -
            ((min stop (base + length) - max offset base : ℕ) : ℤ) =
            ((stop - (base + length) : ℕ) : ℤ) := by omega
        rw [if_neg hlast, if_neg (by omega), hnext, hleft, ← Nat.cast_add]

theorem syncWrite_file {path : PurePath} {content : Bytes} (hnull : hasNull path = false)
    (hfile : fs.node (fs.locate path) = some (.file content)) (offset : ℕ) (data : Bytes) :
    syncWrite fs path offset data =
      (.ok (), fs.put (fs.locate path) (.file (writeAt content offset data))) := by
  rw [syncWrite, hnull]
  simp only [Bool.false_eq_true, if_false, hfile, seekWrite]
  rw [if_neg (by omega), Int.toNat_natCast]

def fileByte (fs : Files) (path : PurePath) (i : ℕ) : Option UInt8 :=
  match fs.node (fs.locate path) with
  | some (.file content) => content[i]?
  | _ => none

def byteAt (fs : Files) : List FileSlice → ℕ → Option UInt8
  | [], _ => none
  | sl :: rest, o =>
    if (o : ℤ) < sl.torrentOffset + sl.length then fileByte fs sl.path (o - sl.torrentOffset).toNat
    else byteAt fs rest o

def Regular (fs : Files) (slices : List FileSlice) : Prop :=
  ∀ sl ∈ slices, hasNull sl.path = false ∧ ∃ content, fs.node (fs.locate sl.path) = some (.file content)

theorem byteAt_head {o : ℕ} (h1 : base ≤ o) (h2 : o < base + length) :
    byteAt fs (⟨path, 0, base, length⟩ :: slices) o = fileByte fs path (o - base) := by
  have hin : (o : ℤ) < (base : ℤ) + (length : ℤ) := by omega
  have hi : ((o : ℤ) - (base : ℤ)).toNat = o - base := by omega
  rw [byteAt, if_pos hin, hi]

theorem byteAt_tail {o : ℕ} (h : base + length ≤ o) :
    byteAt fs (⟨path, 0, base, length⟩ :: slices) o = byteAt fs slices o := by
  have hout : ¬ (o : ℤ) < (base : ℤ) + (length : ℤ) := by omega
  rw [byteAt, if_neg hout]

theorem byteAt_congr {fs' : Files} (hcwd : fs'.cwd = fs.cwd)
    (hnode : ∀ loc ∈ locations fs slices, fs'.node loc = fs.node loc) (o : ℕ) :
    byteAt fs' slices o = byteAt fs slices o := by
  induction slices with
  | nil => rfl
  | cons sl rest ih =>
    have hloc : fs'.locate sl.path = fs.locate sl.path := by rw [Files.locate, Files.locate, hcwd]
    rw [byteAt, byteAt, ih fun loc hm => hnode loc (List.mem_cons_of_mem _ hm), fileByte, fileByte,
      hloc, hnode _ (List.mem_cons_self ..)]

theorem byteAt_extends {fs' : Files} (h : Extends fs fs') {o : ℕ} {b : UInt8}
    (hb : byteAt fs slices o = some b) : byteAt fs' slices o = some b := by
  induction slices with
  | nil => cases hb
  | cons sl rest ih =>
    rw [byteAt] at hb ⊢
    split at hb
    · next hin =>
      rw [if_pos hin]
      unfold fileByte at hb ⊢
      rw [h.locate]
      cases hn : fs.node (fs.locate sl.path) with
      | none => simp [hn] at hb
      | some n =>
        rw [hn] at hb
        rw [h.2 _ _ hn]
        exact hb
    · next hout =>
      rw [if_neg hout]
      exact ih hb

theorem syncRead_bytes {n i : ℕ} {f : ℕ → UInt8}
    (hreg : hasNull path = false ∧ ∃ content, fs.node (fs.locate path) = some (.file content))
    (hbytes : ∀ k, k < n → fileByte fs path (i + k) = some (f k)) :
    syncRead fs path i n = .ok ((List.range n).map f) := by
  obtain ⟨hnull, content, hfile⟩ := hreg
  have hdata : (content.drop i).take n = (List.range n).map f := by
    apply List.ext_getElem?
    intro k
    by_cases hk : k < n
    · have hb : content[i + k]? = some (f k) := by
        have h := hbytes k hk
        rw [fileByte, hfile] at h
        exact h
      rw [List.getElem?_take_of_lt hk, List.getElem?_drop, hb]
      simp [hk]
    · rw [List.getElem?_eq_none (by rw [List.length_take]; omega),
        List.getElem?_eq_none (by simp; omega)]
  rw [syncRead, hnull, hfile]
  simp only [Bool.false_eq_true, if_false, bind, Except.bind, readAt_inside, hdata]
  simp

theorem readLoop_bytes (h : Adjacent base slices) (hreg : Regular fs slices) {f : ℕ → UInt8}
    (hcur : max offset base ≤ stop) (hstop : stop ≤ layoutEnd base slices)
    (hbytes : ∀ o, max offset base ≤ o → o < stop → byteAt fs slices o = some (f o)) :
    DiskStorage.readLoop fs (slices.filter (DiskStorage.overlaps offset stop)) (max offset base : ℕ)
        (stop - max offset base : ℕ) =
      .ok ((List.range' (max offset base) (stop - max offset base)).map f) := by
  induction h with
  | @nil base =>
    rw [layoutEnd_nil] at hstop
    have hzero : stop - max offset base = 0 := by omega
    rw [hzero]
    simp [DiskStorage.readLoop]
  | @cons base path length slices hrest ih =>
    rw [layoutEnd_cons] at hstop
    have hreg' : Regular fs slices := fun sl hm => hreg sl (List.mem_cons_of_mem _ hm)
    have htail : ∀ o, base + length ≤ o → o < stop → max offset base ≤ o →
        byteAt fs slices o = some (f o) := by
      intro o h1 h2 h3
      have hstep : byteAt fs (⟨path, 0, base, length⟩ :: slices) o = byteAt fs slices o :=
        byteAt_tail h1
      rw [← hstep]
      exact hbytes o h3 h2
    by_cases hbefore : base + length ≤ offset
    · have hmax : max offset (base + length) = max offset base := by omega
      have hrec := ih hreg' (by omega) hstop fun o h1 h2 => htail o (by omega) h2 (by omega)
      rw [hmax] at hrec
      rw [filter_before hbefore, hrec]
    · by_cases hafter : stop ≤ base
      · have hzero : stop - max offset base = 0 := by omega
        rw [(Adjacent.cons hrest).filter_after hafter, hzero]
        simp [DiskStorage.readLoop]
      · have hread : syncRead fs path (max offset base - base : ℕ)
            (min stop (base + length) - max offset base : ℕ) =
            .ok ((List.range (min stop (base + length) - max offset base)).map
              fun k => f (max offset base + k)) := by
          apply syncRead_bytes (hreg _ (List.mem_cons_self ..))
          intro k hk
          rw [← hbytes (max offset base + k) (by omega) (by omega), byteAt_head (by omega) (by omega)]
          congr 1
          omega
        have hchunk : ((List.range (min stop (base + length) - max offset base)).map
            fun k => f (max offset base + k)) =
            (List.range' (max offset base) (min stop (base + length) - max offset base)).map f := by
          rw [List.range'_eq_map_range, List.map_map]
          rfl
        rw [filter_inside (by omega) (by omega), readLoop_cons (by omega) (by omega) (by omega),
          hread, hchunk]
        simp only [Except.bind]
        by_cases hlast : stop ≤ base + length
        · rw [if_pos hlast, Nat.min_eq_left hlast]
        · have hmax : max offset (base + length) = base + length := by omega
          have hrec := ih hreg' (by omega) hstop fun o h1 h2 => htail o (by omega) h2 (by omega)
          rw [hmax] at hrec
          have hsplit : stop - max offset base = (min stop (base + length) - max offset base) +
              (stop - (base + length)) := by omega
          rw [if_neg hlast, hrec, hsplit, ← List.range'_append_1, List.map_append]
          have hnext : max offset base + (min stop (base + length) - max offset base) =
              base + length := by omega
          rw [hnext]

@[simp] theorem fileByte_put {content : Bytes} {i : ℕ} :
    fileByte (fs.put (fs.locate path) (.file content)) path i = content[i]? := by
  rw [fileByte, locate_put, put_node_self]

theorem fileByte_congr {fs' : Files} (hcwd : fs'.cwd = fs.cwd)
    (hnode : fs'.node (fs.locate path) = fs.node (fs.locate path)) (i : ℕ) :
    fileByte fs' path i = fileByte fs path i := by
  have hloc : fs'.locate path = fs.locate path := by rw [Files.locate, Files.locate, hcwd]
  rw [fileByte, fileByte, hloc, hnode]

theorem Regular.put {loc : Location} {content : Bytes} (h : Regular fs slices) :
    Regular (fs.put loc (.file content)) slices := by
  intro sl hm
  obtain ⟨hnull, old, hfile⟩ := h sl hm
  refine ⟨hnull, ?_⟩
  rw [locate_put]
  by_cases hloc : fs.locate sl.path = loc
  · rw [hloc]
    exact ⟨content, put_node_self ..⟩
  · rw [put_node_of_ne hloc]
    exact ⟨old, hfile⟩

/-- What a write into the slices from `base` on does: the range from `start` to `stop` holds the
data from `pos` on, the other bytes stay, and no other file is touched. -/
structure Written (fs : Files) (slices : List FileSlice) (base start stop : ℕ) (data : Bytes)
    (pos : ℕ) (fs' : Files) : Prop where
  cwd : fs'.cwd = fs.cwd
  others : ∀ loc, loc ∉ locations fs slices → fs'.node loc = fs.node loc
  regular : Regular fs' slices
  inside : ∀ o, start ≤ o → o < stop → byteAt fs' slices o = data[pos + (o - start)]?
  outside : ∀ o b, base ≤ o → (o < start ∨ stop ≤ o) → byteAt fs slices o = some b →
    byteAt fs' slices o = some b

theorem Written.of_empty {start : ℕ} {data : Bytes} {pos : ℕ} (hreg : Regular fs slices)
    (h : stop ≤ start) : Written fs slices base start stop data pos fs where
  cwd := rfl
  others _ _ := rfl
  regular := hreg
  inside o h1 h2 := by omega
  outside _ _ _ _ hb := hb

/-- A write that leaves the first slice out. -/
theorem Written.skip {fs' : Files} {start : ℕ} {data : Bytes} {pos : ℕ}
    (hreg : Regular fs (⟨path, 0, base, length⟩ :: slices))
    (hnotMem : fs.locate path ∉ locations fs slices) (hstart : base + length ≤ start)
    (h : Written fs slices (base + length) start stop data pos fs') :
    Written fs (⟨path, 0, base, length⟩ :: slices) base start stop data pos fs' where
  cwd := h.cwd
  others loc hm := h.others loc fun hm' => hm (List.mem_cons_of_mem _ hm')
  regular sl hm := by
    rcases List.mem_cons.mp hm with rfl | hm
    · obtain ⟨hnull, content, hfile⟩ := hreg _ (List.mem_cons_self ..)
      refine ⟨hnull, content, ?_⟩
      rw [Files.locate, h.cwd, ← Files.locate, h.others _ hnotMem, hfile]
    · exact h.regular sl hm
  inside o h1 h2 := by
    rw [byteAt_tail (by omega)]
    exact h.inside o h1 h2
  outside o b h1 h2 hb := by
    by_cases hhead : o < base + length
    · rw [byteAt_head h1 hhead] at hb ⊢
      rw [fileByte_congr h.cwd (h.others _ hnotMem), hb]
    · rw [byteAt_tail (by omega)] at hb ⊢
      exact h.outside o b (by omega) h2 hb

/-- The first slice is written up to its end, or up to the end of the range. -/
theorem Written.head {start : ℕ} {data content : Bytes} {pos : ℕ}
    (hreg : Regular fs (⟨path, 0, base, length⟩ :: slices))
    (hfile : fs.node (fs.locate path) = some (.file content))
    (hnotMem : fs.locate path ∉ locations fs slices)
    (hbase : base ≤ start) (hstop : stop ≤ base + length) (hstart : start ≤ stop)
    (hdata : pos + (stop - start) ≤ data.length) :
    Written fs (⟨path, 0, base, length⟩ :: slices) base start stop data pos
      (fs.put (fs.locate path)
        (.file (writeAt content (start - base) ((data.drop pos).take (stop - start))))) where
  cwd := rfl
  others loc hm := put_node_of_ne fun heq => hm (heq ▸ List.mem_cons_self ..)
  regular := hreg.put
  inside o h1 h2 := by
    have hlen : o - start < ((data.drop pos).take (stop - start)).length := by
      rw [List.length_take, List.length_drop]
      omega
    have hat : o - base = start - base + (o - start) := by omega
    rw [byteAt_head (by omega) (by omega), fileByte_put, hat, writeAt_getElem?_inside hlen,
      List.getElem?_take_of_lt (by omega), List.getElem?_drop]
  outside o b h1 h2 hb := by
    by_cases hhead : o < base + length
    · rw [byteAt_head h1 hhead] at hb ⊢
      rw [fileByte, hfile] at hb
      rw [fileByte_put]
      refine writeAt_getElem?_outside ?_ hb
      rw [List.length_take, List.length_drop]
      omega
    · rw [byteAt_tail (by omega)] at hb ⊢
      have hsame : ∀ c : Bytes, byteAt (fs.put (fs.locate path) (.file c)) slices o =
          byteAt fs slices o := fun c =>
        byteAt_congr (put_cwd ..) (fun loc hm => put_node_of_ne (ne_of_mem_of_not_mem hm hnotMem)) o
      rw [hsame, hb]

/-- A write to the first slice up to its end, and then one to the others. -/
theorem Written.append {fs₁ fs' : Files} {start : ℕ} {data : Bytes} {pos : ℕ}
    (hnotMem : fs.locate path ∉ locations fs slices)
    (hbase : base ≤ start) (hstart : start ≤ base + length) (hstop : base + length ≤ stop)
    (h : Written fs (⟨path, 0, base, length⟩ :: slices) base start (base + length) data pos fs₁)
    (hrest : Written fs₁ slices (base + length) (base + length) stop data
      (pos + (base + length - start)) fs') :
    Written fs (⟨path, 0, base, length⟩ :: slices) base start stop data pos fs' := by
  have hlocs : locations fs₁ slices = locations fs slices := locations_congr h.cwd
  have hnotMem₁ : fs₁.locate path ∉ locations fs₁ slices := by
    rw [hlocs, Files.locate, h.cwd, ← Files.locate]
    exact hnotMem
  have hskip := hrest.skip h.regular hnotMem₁ (le_refl _)
  refine ⟨hskip.cwd.trans h.cwd, fun loc hm => ?_, hskip.regular, fun o h1 h2 => ?_, fun o b h1 h2 hb => ?_⟩
  · rw [hskip.others loc ?_, h.others loc hm]
    rw [locations_congr h.cwd]
    exact hm
  · by_cases hhead : o < base + length
    · have hb := h.inside o h1 hhead
      cases hd : data[pos + (o - start)]? with
      | none =>
        rw [byteAt_head (by omega) hhead] at hb ⊢
        rw [fileByte_congr hskip.cwd (hrest.others _ hnotMem₁), hb, hd]
      | some b =>
        rw [hd] at hb
        exact hskip.outside o b (by omega) (Or.inl hhead) hb
    · rw [hskip.inside o (by omega) h2]
      congr 1
      omega
  · rcases h2 with h2 | h2
    · exact hskip.outside o b h1 (Or.inl (by omega)) (h.outside o b h1 (Or.inl h2) hb)
    · exact hskip.outside o b h1 (Or.inr h2) (h.outside o b h1 (Or.inr (by omega)) hb)

/-- A write inside the layout is carried out as a whole. -/
theorem writeLoop_bytes (h : Adjacent base slices) (hreg : Regular fs slices)
    (hnodup : (locations fs slices).Nodup) {data : Bytes} {pos : ℕ}
    (hcur : max offset base ≤ stop) (hstop : stop ≤ layoutEnd base slices)
    (hdata : pos + (stop - max offset base) = data.length) :
    ∃ fs', DiskStorage.writeLoop data (slices.filter (DiskStorage.overlaps offset stop))
        (max offset base : ℕ) pos (stop - max offset base : ℕ) fs = (.ok (), fs') ∧
      Written fs slices base (max offset base) stop data pos fs' := by
  induction h generalizing fs pos with
  | @nil base =>
    rw [layoutEnd_nil] at hstop
    exact ⟨fs, rfl, .of_empty hreg (by omega)⟩
  | @cons base path length slices hrest ih =>
    rw [layoutEnd_cons] at hstop
    obtain ⟨hnotMem, hnodup'⟩ := List.nodup_cons.mp hnodup
    obtain ⟨hnull, content, hfile⟩ := hreg _ (List.mem_cons_self ..)
    have hreg' : Regular fs slices := fun sl hm => hreg sl (List.mem_cons_of_mem _ hm)
    by_cases hbefore : base + length ≤ offset
    · have hmax : max offset (base + length) = max offset base := by omega
      obtain ⟨fs', hrun, hwritten⟩ :=
        ih hreg' hnodup' (by omega) hstop (by rw [hmax]; exact hdata)
      rw [hmax] at hrun hwritten
      rw [filter_before hbefore]
      exact ⟨fs', hrun, hwritten.skip hreg hnotMem (by omega)⟩
    · by_cases hafter : stop ≤ base
      · rw [(Adjacent.cons hrest).filter_after hafter]
        exact ⟨fs, rfl, .of_empty hreg (by omega)⟩
      · rw [filter_inside (by omega) (by omega), writeLoop_cons (by omega) (by omega) (by omega),
          syncWrite_file hnull hfile]
        simp only
        by_cases hlast : stop ≤ base + length
        · rw [if_pos hlast, Nat.min_eq_left hlast]
          exact ⟨_, rfl, .head hreg hfile hnotMem (by omega) hlast hcur (by omega)⟩
        · have hmin : min stop (base + length) = base + length := by omega
          have hmax : max offset (base + length) = base + length := by omega
          have hhead := Written.head hreg hfile hnotMem (le_max_right offset base) (le_refl _)
            (by omega) (show pos + (base + length - max offset base) ≤ data.length by omega)
          have hdata' : pos + (base + length - max offset base) +
              (stop - max offset (base + length)) = data.length := by omega
          obtain ⟨fs', hrun, hwritten⟩ := ih
            (fun sl hm => hhead.regular sl (List.mem_cons_of_mem _ hm)) hnodup' (by omega) hstop
            hdata'
          rw [hmax] at hrun hwritten
          rw [if_neg hlast, hmin, hrun]
          exact ⟨fs', rfl, hhead.append hnotMem (by omega) (by omega) (by omega) hwritten⟩

end SliceLoops
