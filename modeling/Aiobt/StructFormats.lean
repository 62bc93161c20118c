import Aiobt.BigEndian
import Mathlib.Algebra.Order.Ring.Int

/-! # Packed fields

`struct.pack` and `struct.unpack_from` with a format that starts with `!`. -/
namespace StructFormats

open ByteStrings BigEndian

/-- `unsigned` is `B`, `H`, `I` or `Q`, `signed` is `i` or `q`, `chars` is `s` with its count. -/
inductive Field where
  | unsigned (width : ℕ)
  | signed (width : ℕ)
  | chars (count : ℕ)
  deriving DecidableEq, Repr

inductive Value where
  | int (value : ℤ)
  | bytes (text : Bytes)
  deriving DecidableEq, Repr

def Field.size : Field → ℕ
  | .unsigned width => width
  | .signed width => width
  | .chars count => count

def calcsize : List Field → ℕ
  | [] => 0
  | f :: format => f.size + calcsize format

/-- A text is cut or filled up with zeros to the size of its field. -/
def fit (count : ℕ) (text : Bytes) : Bytes :=
  text.take count ++ List.replicate (count - text.length) 0

/-- `none` stands for `struct.error`. -/
def packField : Field → Value → Option Bytes
  | .unsigned width, .int z =>
    if 0 ≤ z ∧ z < 256 ^ width then some (toBytes width z.toNat) else none
  | .signed width, .int z =>
    if -256 ^ width ≤ 2 * z ∧ 2 * z < 256 ^ width then
      some (toBytes width (z % 256 ^ width).toNat)
    else none
  | .chars count, .bytes text => some (fit count text)
  | _, _ => none

def pack : List Field → List Value → Option Bytes
  | [], [] => some []
  | f :: format, v :: values =>
    (packField f v).bind fun front => (pack format values).map fun rest => front ++ rest
  | _, _ => none

def unpackField : Field → Bytes → Value
  | .unsigned _, b => .int (fromBytes b)
  | .signed width, b =>
    .int (if 2 * fromBytes b < 256 ^ width then fromBytes b else fromBytes b - 256 ^ width)
  | .chars _, b => .bytes b

/-- `struct.unpack_from` for one field; `none` stands for `struct.error`. -/
def readAt (b : Bytes) (offset : ℕ) (f : Field) : Option Value :=
  if b.length < offset + f.size then none
  else some (unpackField f (slice b offset (offset + f.size)))

def unpackFrom : List Field → Bytes → ℕ → Option (List Value)
  | [], _, _ => some []
  | f :: format, b, offset =>
    (readAt b offset f).bind fun v =>
      (unpackFrom format b (offset + f.size)).map fun values => v :: values

def offsets : ℕ → List Field → List (ℕ × Field)
  | _, [] => []
  | offset, f :: format => (offset, f) :: offsets (offset + f.size) format

def stored : Field → Value → Value
  | .chars count, .bytes text => .bytes (fit count text)
  | _, v => v

def Fits : Field → Value → Prop
  | .unsigned width, .int z => 0 ≤ z ∧ z < 256 ^ width
  | .signed width, .int z => -256 ^ width ≤ 2 * z ∧ 2 * z < 256 ^ width
  | .chars _, .bytes _ => True
  | _, _ => False

theorem length_fit (count : ℕ) (text : Bytes) : (fit count text).length = count := by
  rw [fit, List.length_append, List.length_take, List.length_replicate]
  omega

theorem fit_of_length {count : ℕ} {text : Bytes} (h : text.length = count) : fit count text = text := by
  rw [fit, List.take_of_length_le h.le, h, Nat.sub_self, List.replicate_zero, List.append_nil]

theorem packField_isSome_iff {f : Field} {v : Value} : (packField f v).isSome ↔ Fits f v := by
  unfold packField Fits
  split
  · split_ifs with hz
    · exact iff_of_true rfl hz
    · exact iff_of_false Bool.false_ne_true hz
  · split_ifs with hz
    · exact iff_of_true rfl hz
    · exact iff_of_false Bool.false_ne_true hz
  · exact iff_of_true rfl trivial
  · exact iff_of_false Bool.false_ne_true id

theorem packField_nat (width n : ℕ) :
    packField (.unsigned width) (.int n) =
      if n < 256 ^ width then some (toBytes width n) else none := by
  have hcast : ((256 ^ width : ℕ) : ℤ) = 256 ^ width := by push_cast; rfl
  rw [packField, ← hcast, Int.toNat_natCast]
  by_cases h : n < 256 ^ width
  · rw [if_pos h, if_pos ⟨Int.natCast_nonneg n, Int.ofNat_lt.mpr h⟩]
  · rw [if_neg h, if_neg fun hboth => h (Int.ofNat_lt.mp hboth.2)]

theorem length_packField {f : Field} {v : Value} {b : Bytes} (h : packField f v = some b) :
    b.length = f.size := by
  unfold packField at h
  split at h
  · split_ifs at h
    obtain rfl := Option.some.inj h
    exact length_toBytes _ _
  · split_ifs at h
    obtain rfl := Option.some.inj h
    exact length_toBytes _ _
  · obtain rfl := Option.some.inj h
    exact length_fit _ _
  · cases h

theorem unpackField_packField {f : Field} {v : Value} {b : Bytes} (h : packField f v = some b) :
    unpackField f b = stored f v := by
  unfold packField at h
  split at h
  · next width z =>
    split_ifs at h with hz
    obtain rfl := Option.some.inj h
    have hlt : z.toNat < 256 ^ width := by
      have hcast : ((256 ^ width : ℕ) : ℤ) = 256 ^ width := by push_cast; rfl
      omega
    rw [unpackField, fromBytes_toBytes hlt, Int.toNat_of_nonneg hz.1]
    rfl
  · next width z =>
    split_ifs at h with hz
    obtain rfl := Option.some.inj h
    have hpow : (0 : ℤ) < 256 ^ width := pow_pos (by decide) width
    have hcast : ((256 ^ width : ℕ) : ℤ) = 256 ^ width := by push_cast; rfl
    have hnonneg := Int.emod_nonneg z hpow.ne'
    have hless := Int.emod_lt_of_pos z hpow
    rw [unpackField, fromBytes_toBytes (by omega), Int.toNat_of_nonneg hnonneg]
    refine congrArg Value.int ?_
    rcases Int.lt_or_le z 0 with hneg | hpos
    · have hmod : z % 256 ^ width = z + 256 ^ width := by
        rw [← Int.add_emod_right, Int.emod_eq_of_lt (by omega) (by omega)]
      rw [if_neg (by omega), hmod]
      omega
    · rw [Int.emod_eq_of_lt hpos (by omega), if_pos (by omega)]
  · obtain rfl := Option.some.inj h
    rfl
  · cases h

theorem pack_cons {f : Field} {v : Value} {format : List Field} {values : List Value} {b : Bytes}
    (h : pack (f :: format) (v :: values) = some b) :
    ∃ front rest, packField f v = some front ∧ pack format values = some rest ∧ b = front ++ rest := by
  obtain ⟨front, hfront, h⟩ := Option.bind_eq_some_iff.mp h
  obtain ⟨rest, hrest, rfl⟩ := Option.map_eq_some_iff.mp h
  exact ⟨front, rest, hfront, hrest, rfl⟩

/-- Packing succeeds exactly where every value is one that its field takes. -/
theorem pack_isSome_iff {format : List Field} {values : List Value} :
    (pack format values).isSome ↔ List.Forall₂ Fits format values := by
  induction format generalizing values with
  | nil =>
    cases values with
    | nil => exact iff_of_true rfl .nil
    | cons v values => exact iff_of_false Bool.false_ne_true fun h => by cases h
  | cons f format ih =>
    cases values with
    | nil => exact iff_of_false Bool.false_ne_true fun h => by cases h
    | cons v values =>
      rw [List.forall₂_cons, ← packField_isSome_iff, ← ih, pack]
      cases packField f v with
      | none => exact iff_of_false Bool.false_ne_true fun h => Bool.false_ne_true h.1
      | some front =>
        rw [Option.bind_some, Option.isSome_map, Option.isSome_some]
        exact (and_iff_right rfl).symm

theorem length_pack {format : List Field} {values : List Value} {b : Bytes}
    (h : pack format values = some b) : b.length = calcsize format := by
  induction format generalizing values b with
  | nil =>
    cases values with
    | nil =>
      obtain rfl := Option.some.inj h
      rfl
    | cons v values => cases h
  | cons f format ih =>
    cases values with
    | nil => cases h
    | cons v values =>
      obtain ⟨front, rest, hfront, hrest, rfl⟩ := pack_cons h
      rw [List.length_append, length_packField hfront, ih hrest, calcsize]

/-- What was packed is read at the offset where it stands, whatever is before and behind it. -/
theorem unpackFrom_pack {format : List Field} {values : List Value} {b : Bytes}
    (h : pack format values = some b) (before after : Bytes) :
    unpackFrom format (before ++ b ++ after) before.length =
      some (List.zipWith stored format values) := by
  induction format generalizing values b before with
  | nil =>
    cases values with
    | nil => rfl
    | cons v values => cases h
  | cons f format ih =>
    cases values with
    | nil => cases h
    | cons v values =>
      obtain ⟨front, rest, hfront, hrest, rfl⟩ := pack_cons h
      have hread : readAt (before ++ (front ++ rest) ++ after) before.length f = some (stored f v) := by
        have hslice : slice (before ++ (front ++ rest) ++ after) before.length
            (before.length + f.size) = front := by
          rw [slice_add, List.append_assoc, List.drop_left' rfl, List.append_assoc,
            List.take_left' (length_packField hfront)]
        have hlong : ¬ (before ++ (front ++ rest) ++ after).length < before.length + f.size := by
          simp only [List.length_append, length_packField hfront]
          omega
        rw [readAt, if_neg hlong, hslice, unpackField_packField hfront]
      have htail := ih hrest (before ++ front)
      rw [List.length_append, length_packField hfront, List.append_assoc before] at htail
      rw [unpackFrom, hread, Option.bind_some, htail]
      rfl

theorem readAt_eq_some_iff {b : Bytes} {offset : ℕ} {f : Field} {v : Value} :
    readAt b offset f = some v ↔
      offset + f.size ≤ b.length ∧ unpackField f (slice b offset (offset + f.size)) = v := by
  rw [readAt]
  split
  · next hshort => exact iff_of_false (fun h => by cases h) fun h => by omega
  · next hlong => exact ⟨fun h => ⟨by omega, Option.some.inj h⟩, fun h => congrArg some h.2⟩

/-- A number that is not negative is read alike with a sign and without one. -/
theorem readAt_unsigned {b : Bytes} {offset width : ℕ} {z : ℤ} (hz : 0 ≤ z)
    (h : readAt b offset (.signed width) = some (.int z)) :
    readAt b offset (.unsigned width) = some (.int z) := by
  obtain ⟨hlong, hvalue⟩ := readAt_eq_some_iff.mp h
  refine readAt_eq_some_iff.mpr ⟨hlong, ?_⟩
  have hlength : (slice b offset (offset + width)).length ≤ width := by
    rw [slice_add]
    exact List.length_take_le _ _
  obtain ⟨n, hn⟩ : ∃ n, n = fromBytes (slice b offset (offset + width)) := ⟨_, rfl⟩
  have hlt : n < 256 ^ width :=
    hn ▸ lt_of_lt_of_le (fromBytes_lt _) (Nat.pow_le_pow_right (by decide) hlength)
  have hcast : ((256 ^ width : ℕ) : ℤ) = 256 ^ width := by push_cast; rfl
  have hint : (if 2 * n < 256 ^ width then (n : ℤ) else n - 256 ^ width) = z :=
    hn ▸ Value.int.inj hvalue
  have hhalf : 2 * n < 256 ^ width := by
    by_contra hhalf
    rw [if_neg hhalf] at hint
    omega
  rw [if_pos hhalf] at hint
  rw [unpackField, Field.size, ← hn, hint]

theorem readAt_of_unpackFrom {format : List Field} {b : Bytes} {offset : ℕ} {values : List Value}
    (h : unpackFrom format b offset = some values) :
    (offsets offset format).map (fun entry => readAt b entry.1 entry.2) = values.map some := by
  induction format generalizing offset values with
  | nil =>
    obtain rfl := Option.some.inj h
    rfl
  | cons f format ih =>
    obtain ⟨v, hv, h⟩ := Option.bind_eq_some_iff.mp h
    obtain ⟨rest, hrest, rfl⟩ := Option.map_eq_some_iff.mp h
    rw [offsets, List.map_cons, hv, ih hrest, List.map_cons]

end StructFormats
