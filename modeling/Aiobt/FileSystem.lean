import Aiobt.ByteStrings
import Aiobt.PosixPaths
import Mathlib.Logic.Function.Basic

/-! # A file system

Directories and files under normalised locations, without symbolic links. The operations are the
ones `pathlib` and `open` offer; each returns the file system it leaves behind, also when it
raises. -/
namespace FileSystem

open ByteStrings PosixPaths

abbrev Location := List Part

inductive Node where
  | dir
  | file (content : Bytes)
  deriving DecidableEq, Repr

inductive OsError where
  | notFound
  | isDirectory
  | fileExists
  | invalidArgument
  | nullByte
  | shortRead (expected : ℤ) (got : ℕ)
  deriving DecidableEq, Repr

structure Files where
  cwd : Location
  node : Location → Option Node

abbrev Effect (α : Type) := Except OsError α × Files

def Files.locate (fs : Files) (p : PurePath) : Location :=
  (if p.isAbsolute then p.parts else fs.cwd ++ p.parts).foldl (pushPart true) []

def Files.put (fs : Files) (loc : Location) (n : Node) : Files :=
  { fs with node := Function.update fs.node loc (some n) }

section
variable (fs : Files) (loc : Location) (n : Node) (p : PurePath)

@[simp] theorem put_cwd : (fs.put loc n).cwd = fs.cwd := rfl
@[simp] theorem locate_put : (fs.put loc n).locate p = fs.locate p := rfl
@[simp] theorem put_node_self : (fs.put loc n).node loc = some n := Function.update_self ..

theorem put_node_of_ne {fs : Files} {loc loc' : Location} {n : Node} (h : loc' ≠ loc) :
    (fs.put loc n).node loc' = fs.node loc' := Function.update_of_ne h ..

end

def mkdirs : List Location → Files → Effect Unit
  | [], fs => (.ok (), fs)
  | loc :: rest, fs =>
    match fs.node loc with
    | none => mkdirs rest (fs.put loc .dir)
    | some .dir => mkdirs rest fs
    | some (.file _) => (.error .fileExists, fs)

def parents (p : PurePath) : List PurePath := p.parts.dropLast.inits.map fun parts => ⟨p.root, parts⟩

/-- What an operation may do to a file system: add nodes where there was none. -/
def Extends (fs fs' : Files) : Prop :=
  fs'.cwd = fs.cwd ∧ ∀ loc n, fs.node loc = some n → fs'.node loc = some n

theorem Extends.refl (fs : Files) : Extends fs fs := ⟨rfl, fun _ _ h => h⟩

theorem Extends.trans {a b c : Files} (h : Extends a b) (k : Extends b c) : Extends a c :=
  ⟨k.1.trans h.1, fun loc n hn => k.2 loc n (h.2 loc n hn)⟩

theorem Extends.locate {fs fs' : Files} (h : Extends fs fs') (p : PurePath) :
    fs'.locate p = fs.locate p := by
  rw [Files.locate, Files.locate, h.1]

theorem extends_put {fs : Files} {loc : Location} {n : Node} (h : fs.node loc = none) :
    Extends fs (fs.put loc n) := by
  refine ⟨rfl, fun loc' n' hn => ?_⟩
  have hne : loc' ≠ loc := by
    rintro rfl
    rw [h] at hn
    cases hn
  rw [put_node_of_ne hne, hn]

theorem mkdirs_extends (locs : List Location) (fs : Files) : Extends fs (mkdirs locs fs).2 := by
  induction locs generalizing fs with
  | nil => exact Extends.refl fs
  | cons loc rest ih =>
    rw [mkdirs]
    split
    · next h => exact (extends_put h).trans (ih _)
    · exact ih fs
    · exact Extends.refl fs

/-- Only the locations that were asked for come into being. -/
theorem mkdirs_node_of_notMem {locs : List Location} {fs : Files} {loc : Location}
    (h : loc ∉ locs) : (mkdirs locs fs).2.node loc = fs.node loc := by
  induction locs generalizing fs with
  | nil => rfl
  | cons a rest ih =>
    rw [List.mem_cons, not_or] at h
    rw [mkdirs]
    split
    · rw [ih h.2, put_node_of_ne h.1]
    · exact ih h.2
    · rfl

theorem mkdirs_ok {locs : List Location} {fs : Files}
    (h : ∀ loc ∈ locs, fs.node loc = none ∨ fs.node loc = some .dir) :
    (mkdirs locs fs).1 = .ok () ∧ ∀ loc ∈ locs, (mkdirs locs fs).2.node loc = some .dir := by
  induction locs generalizing fs with
  | nil => exact ⟨rfl, by simp⟩
  | cons a rest ih =>
    have key : ∀ fs' : Files, fs'.node a = some .dir →
        (∀ loc ∈ rest, fs'.node loc = none ∨ fs'.node loc = some .dir) →
        (mkdirs rest fs').1 = .ok () ∧
          ∀ loc ∈ a :: rest, (mkdirs rest fs').2.node loc = some .dir := by
      intro fs' ha hrest
      obtain ⟨hok, hall⟩ := ih hrest
      refine ⟨hok, fun loc hm => ?_⟩
      rcases List.mem_cons.mp hm with rfl | hm
      · exact (mkdirs_extends rest fs').2 _ _ ha
      · exact hall loc hm
    rcases h a (List.mem_cons_self ..) with ha | ha
    · rw [mkdirs, ha]
      apply key _ (put_node_self ..)
      intro loc hm
      by_cases hne : loc = a
      · rw [hne]
        exact Or.inr (put_node_self ..)
      · rw [put_node_of_ne hne]
        exact h loc (List.mem_cons_of_mem _ hm)
    · rw [mkdirs, ha]
      exact key fs ha fun loc hm => h loc (List.mem_cons_of_mem _ hm)

theorem mkdirs_existing {locs : List Location} {fs : Files}
    (h : ∀ loc ∈ locs, fs.node loc = some .dir) : mkdirs locs fs = (.ok (), fs) := by
  induction locs with
  | nil => rfl
  | cons loc rest ih =>
    rw [mkdirs, h loc (List.mem_cons_self ..)]
    exact ih fun loc' hm => h loc' (List.mem_cons_of_mem _ hm)

def readAt (content : Bytes) (offset length : ℤ) : Except OsError Bytes :=
  if offset < 0 then .error .invalidArgument
  else if length < 0 then .ok (content.drop offset.toNat)
  else .ok ((content.drop offset.toNat).take length.toNat)

/-- `seek` and `write`. A gap before the offset is filled with zeros, but only by bytes that are
written. -/
def writeAt (content : Bytes) (offset : ℕ) (data : Bytes) : Bytes :=
  if data = [] then content
  else content.take offset ++ List.replicate (offset - content.length) 0 ++
    (data ++ content.drop (offset + data.length))

theorem readAt_inside {content : Bytes} {offset length : ℕ} :
    readAt content offset length = .ok ((content.drop offset).take length) := by
  rw [readAt, if_neg (by omega), if_neg (by omega), Int.toNat_natCast, Int.toNat_natCast]

theorem writeAt_inside {content data : Bytes} {offset : ℕ}
    (h : offset + data.length ≤ content.length) :
    writeAt content offset data =
      content.take offset ++ (data ++ content.drop (offset + data.length)) := by
  unfold writeAt
  split
  · next hnil => simp [hnil]
  · rw [Nat.sub_eq_zero_of_le (by omega), List.replicate_zero, List.append_nil]

theorem length_front (content : Bytes) (offset : ℕ) :
    (content.take offset ++ List.replicate (offset - content.length) 0).length = offset := by
  rw [List.length_append, List.length_take, List.length_replicate]
  omega

/-- What was written is there, wherever the file ended before. -/
theorem writeAt_getElem?_inside {content data : Bytes} {offset i : ℕ} (h : i < data.length) :
    (writeAt content offset data)[offset + i]? = data[i]? := by
  have hne : data ≠ [] := by
    rintro rfl
    cases h
  rw [writeAt, if_neg hne, List.getElem?_append_right (by rw [length_front]; omega), length_front,
    Nat.add_sub_cancel_left, List.getElem?_append_left h]

theorem writeAt_getElem?_outside {content data : Bytes} {offset i : ℕ} {b : UInt8}
    (hi : i < offset ∨ offset + data.length ≤ i) (hb : content[i]? = some b) :
    (writeAt content offset data)[i]? = some b := by
  have hlt : i < content.length := (List.getElem?_eq_some_iff.mp hb).1
  unfold writeAt
  split
  · exact hb
  · rcases hi with hi | hi
    · rw [List.getElem?_append_left (by rw [length_front]; exact hi),
        List.getElem?_append_left (by rw [List.length_take]; omega), List.getElem?_take_of_lt hi, hb]
    · rw [List.getElem?_append_right (by rw [length_front]; omega), length_front,
        List.getElem?_append_right (by omega), List.getElem?_drop, ← hb]
      congr 1
      omega

/-- A file that is written from its start, chunk after chunk. -/
theorem writeAt_take {payload : Bytes} {written n : ℕ} (hle : written + n ≤ payload.length) :
    writeAt (payload.take written) written ((payload.drop written).take n) =
      payload.take (written + n) := by
  rw [List.take_add]
  unfold writeAt
  split
  · next hnil => rw [hnil, List.append_nil]
  · have hlength : (payload.take written).length = written := by
      rw [List.length_take]
      omega
    have hrest : (payload.take written).drop (written + ((payload.drop written).take n).length) = [] :=
      List.drop_eq_nil_of_le (by omega)
    rw [hlength, Nat.sub_self, List.replicate_zero, List.append_nil, List.take_take, Nat.min_self,
      hrest, List.append_nil]

end FileSystem
