import Mathlib.Data.List.TakeDrop
import Mathlib.Data.List.Sort

/-! # Byte strings

Byte strings are lists of bytes, and `slice` is Python slicing `b[i:j]` with `0 ≤ i` and `0 ≤ j`.
A reader at position `pos` of a buffer sees `buf.drop pos`. -/
namespace ByteStrings

abbrev Bytes := List UInt8

variable {α : Type*}

def slice (b : List α) (i j : ℕ) : List α := (b.take j).drop i

theorem slice_add (b : List α) (i n : ℕ) : slice b i (i + n) = (b.drop i).take n := by
  rw [slice, List.drop_take, Nat.add_sub_cancel_left]

@[simp] theorem length_slice (b : List α) (i j : ℕ) : (slice b i j).length = min j b.length - i := by
  simp [slice]

theorem slice_of_drop {b w t : List α} {i : ℕ} (h : b.drop i = w ++ t) :
    slice b i (i + w.length) = w := by
  rw [slice_add, h, List.take_left']
  rfl

theorem drop_add_of_drop {b w t : List α} {i : ℕ} (h : b.drop i = w ++ t) :
    b.drop (i + w.length) = t := by
  rw [← List.drop_drop, h, List.drop_left']
  rfl

theorem getElem?_of_drop {b t : List α} {i : ℕ} {a : α} (h : b.drop i = a :: t) :
    b[i]? = some a := by
  have hd : (b.drop i)[0]? = b[i + 0]? := List.getElem?_drop
  rw [h] at hd
  exact hd.symm

theorem drop_of_getElem? {b : List α} {i : ℕ} {a : α} (h : b[i]? = some a) :
    b.drop i = a :: b.drop (i + 1) := by
  obtain ⟨hi, rfl⟩ := List.getElem?_eq_some_iff.mp h
  exact List.drop_eq_getElem_cons hi

theorem length_of_drop {b w t : List α} {i : ℕ} (h : b.drop i = w ++ t) (hi : i ≤ b.length) :
    i + w.length + t.length = b.length := by
  have := congrArg List.length h
  simp only [List.length_drop, List.length_append] at this
  omega

def sliceBound (len i : ℤ) : ℕ := (if i < 0 then max (i + len) 0 else min i len).toNat

def pySlice (b : List α) (start stop : ℤ) : List α :=
  slice b (sliceBound b.length start) (sliceBound b.length stop)

theorem sliceBound_nat {n i : ℕ} (h : i ≤ n) : sliceBound n i = i := by
  rw [sliceBound, if_neg (by omega)]
  omega

theorem pySlice_nat {b : List α} {i j : ℕ} (hi : i ≤ b.length) (hj : j ≤ b.length) :
    pySlice b i j = slice b i j := by
  rw [pySlice, sliceBound_nat hi, sliceBound_nat hj]

theorem slice_min (b : List α) (i j : ℕ) :
    slice b (min i b.length) (min j b.length) = slice b i j := by
  rw [slice, slice, ← List.take_eq_take_min]
  rcases Nat.le_total i b.length with h | h
  · rw [Nat.min_eq_left h]
  · have hlen := List.length_take_le j b
    rw [Nat.min_eq_right h, List.drop_eq_nil_of_le (List.length_take_le' j b),
      List.drop_eq_nil_of_le ((List.length_take_le' j b).trans h)]

/-- Bounds past the end are clipped by either form of slicing. -/
theorem pySlice_natCast (b : List α) (i j : ℕ) : pySlice b i j = slice b i j := by
  have hb : ∀ k : ℕ, sliceBound b.length k = min k b.length := by
    intro k
    rw [sliceBound, if_neg (by omega)]
    omega
  rw [pySlice, hb, hb, slice_min]

/-- A buffer that holds the front `w` of the bytes to come. -/
theorem split_front {b rest w t : List α} (h : b ++ rest = w ++ t) (hlen : w.length ≤ b.length) :
    b.take w.length = w ∧ b.drop w.length ++ rest = t := by
  have htake := congrArg (List.take w.length) h
  have hdrop := congrArg (List.drop w.length) h
  rw [List.take_append_of_le_length hlen, List.take_left' rfl] at htake
  rw [List.drop_append_of_le_length hlen, List.drop_left' rfl] at hdrop
  exact ⟨htake, hdrop⟩

/-- `b.find(pattern)`: the lowest index, or `none` for `-1`. -/
def find (b pattern : Bytes) : Option ℕ :=
  (List.range (b.length + 1)).find? fun i => pattern.isPrefixOf (b.drop i)

theorem find_eq_none {b pattern : Bytes} :
    find b pattern = none ↔ ∀ i ≤ b.length, ¬ pattern <+: b.drop i := by
  rw [find, List.find?_eq_none]
  simp only [List.mem_range, Nat.lt_succ_iff, List.isPrefixOf_iff_prefix]

theorem find_eq_some {b pattern : Bytes} {i : ℕ} (hi : i ≤ b.length) (hat : pattern <+: b.drop i)
    (hbefore : ∀ k < i, ¬ pattern <+: b.drop k) : find b pattern = some i := by
  rw [find, List.find?_range_eq_some]
  refine ⟨by simpa using hat, by simp; omega, fun k hk => ?_⟩
  rw [Bool.not_eq_true', Bool.eq_false_iff, ne_eq, List.isPrefixOf_iff_prefix]
  exact hbefore k hk

def FirstBehind (marker pad : Bytes) : Prop :=
  ∀ i < pad.length, ¬ marker <+: (pad ++ marker).drop i

instance (marker pad : Bytes) : Decidable (FirstBehind marker pad) :=
  inferInstanceAs (Decidable (∀ i < pad.length, _))

theorem FirstBehind.not_prefix {marker pad b rest t : Bytes} {i : ℕ} (h : FirstBehind marker pad)
    (hb : b ++ rest = pad ++ (marker ++ t)) (hi : i < pad.length) : ¬ marker <+: b.drop i := by
  intro hp
  apply h i hi
  have hsuffix : (b ++ rest).drop i = (pad ++ marker).drop i ++ t := by
    rw [hb, ← List.append_assoc, List.drop_append_of_le_length]
    rw [List.length_append]
    omega
  have hlong : marker.length ≤ ((pad ++ marker).drop i).length := by
    rw [List.length_drop, List.length_append]
    omega
  have hwhole : marker <+: (pad ++ marker).drop i ++ t := by
    rw [← hsuffix]
    refine hp.trans ?_
    rw [List.drop_append]
    exact List.prefix_append _ _
  exact List.prefix_of_prefix_length_le hwhole (List.prefix_append _ _) hlong

theorem FirstBehind.find_none {marker pad b rest t : Bytes} (h : FirstBehind marker pad)
    (hb : b ++ rest = pad ++ (marker ++ t)) (hlen : b.length < pad.length + marker.length) :
    find b marker = none := by
  rw [find_eq_none]
  intro i hi hp
  have hfits := hp.length_le
  rw [List.length_drop] at hfits
  exact h.not_prefix hb (by omega) hp

theorem FirstBehind.find_some {marker pad b rest t : Bytes} (h : FirstBehind marker pad)
    (hb : b ++ rest = pad ++ (marker ++ t)) (hlen : pad.length + marker.length ≤ b.length) :
    find b marker = some pad.length := by
  obtain ⟨-, hdrop⟩ := split_front hb (by omega)
  obtain ⟨htake, -⟩ := split_front hdrop (by rw [List.length_drop]; omega)
  apply find_eq_some
  · omega
  · rw [← htake]
    exact List.take_prefix _ _
  · intro k hk
    exact h.not_prefix hb hk

def keyLe (a b : Bytes × α) : Prop := a.1 ≤ b.1

instance : DecidableRel (keyLe (α := α)) := fun a b => inferInstanceAs (Decidable (a.1 ≤ b.1))

instance : Std.Total (keyLe (α := α)) := ⟨fun a b => List.le_total a.1 b.1⟩
instance : IsTrans (Bytes × α) keyLe := ⟨fun _ _ _ h k => List.le_trans h k⟩

def sortedItems (items : List (Bytes × α)) : List (Bytes × α) := items.insertionSort keyLe

theorem sortedItems_perm (items : List (Bytes × α)) : (sortedItems items).Perm items :=
  List.perm_insertionSort _ _

theorem sortedItems_pairwise_le (items : List (Bytes × α)) :
    (sortedItems items).Pairwise keyLe := List.pairwise_insertionSort _ _

def UniqueKeys (items : List (Bytes × α)) : Prop := (items.map Prod.fst).Nodup

def Ascending (items : List (Bytes × α)) : Prop := items.Pairwise fun a b => a.1 < b.1

theorem bytes_lt_of_le_of_ne {a b : Bytes} (h : a ≤ b) (hne : a ≠ b) : a < b := by
  by_contra hlt
  exact hne (List.le_antisymm h (List.not_lt.mp hlt))

theorem sortedItems_ascending {items : List (Bytes × α)} (h : UniqueKeys items) :
    Ascending (sortedItems items) := by
  have hnd : ((sortedItems items).map Prod.fst).Nodup :=
    ((sortedItems_perm items).map Prod.fst).nodup_iff.mpr h
  rw [List.Nodup, List.pairwise_map] at hnd
  exact ((sortedItems_pairwise_le items).and hnd).imp fun h => bytes_lt_of_le_of_ne h.1 h.2

theorem sortedItems_of_ascending {items : List (Bytes × α)} (h : Ascending items) :
    sortedItems items = items :=
  List.Pairwise.insertionSort_eq (h.imp fun h => List.le_of_lt h)

theorem sortedItems_idem (items : List (Bytes × α)) :
    sortedItems (sortedItems items) = sortedItems items :=
  List.Pairwise.insertionSort_eq (sortedItems_pairwise_le items)

theorem lookup_of_mem {items : List (Bytes × α)} (h : UniqueKeys items) {k : Bytes} {a : α}
    (hm : (k, a) ∈ items) : items.lookup k = some a := by
  induction items with
  | nil => cases hm
  | cons e rest ih =>
    have hnd := List.nodup_cons.mp h
    rcases List.mem_cons.mp hm with rfl | hm
    · simp
    · have hne : (k == e.1) = false := by
        simp only [beq_eq_false_iff_ne, ne_eq]
        rintro rfl
        exact hnd.1 (List.mem_map.mpr ⟨_, hm, rfl⟩)
      rw [List.lookup_cons, hne]
      exact ih hnd.2 hm

theorem sortedItems_map {β : Type*} (f : α → β) (items : List (Bytes × α)) :
    sortedItems (items.map fun e => (e.1, f e.2)) =
      (sortedItems items).map fun e => (e.1, f e.2) :=
  (List.map_insertionSort keyLe keyLe (fun e : Bytes × α => (e.1, f e.2)) items
    fun _ _ _ _ => Iff.rfl).symm

end ByteStrings
