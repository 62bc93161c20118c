import Aiobt.ByteStrings

/-! # Flat stores

A store is read and written at offsets. The flat store is the specification: an array of bytes.
Another store refines it when a relation between their states is kept by every operation inside
the array. -/
namespace FlatStore

open ByteStrings

variable {σ τ ε : Type}

structure Store (σ ε : Type) where
  read : σ → ℕ → ℕ → Except ε Bytes
  write : σ → ℕ → Bytes → Except ε Unit × σ

inductive Op where
  | read (offset length : ℕ)
  | write (offset : ℕ) (data : Bytes)
  deriving DecidableEq, Repr

def Op.stop : Op → ℕ
  | .read offset length => offset + length
  | .write offset data => offset + data.length

/-- The results of a list of operations, a write returning nothing, and the last state. -/
def Store.run (S : Store σ ε) : List Op → σ → List (Except ε Bytes) × σ
  | [], s => ([], s)
  | .read offset length :: rest, s =>
    let (results, t) := S.run rest s
    (S.read s offset length :: results, t)
  | .write offset data :: rest, s =>
    let (results, t) := S.run rest (S.write s offset data).2
    ((S.write s offset data).1.map (fun _ => []) :: results, t)

def flatRead (a : Bytes) (offset length : ℕ) : Bytes := (a.drop offset).take length

def flatWrite (a : Bytes) (offset : ℕ) (data : Bytes) : Bytes :=
  a.take offset ++ (data ++ a.drop (offset + data.length))

def flat (ε : Type) : Store Bytes ε where
  read a offset length := .ok (flatRead a offset length)
  write a offset data := (.ok (), flatWrite a offset data)

theorem length_flatWrite {a data : Bytes} {offset : ℕ} (h : offset + data.length ≤ a.length) :
    (flatWrite a offset data).length = a.length := by
  simp only [flatWrite, List.length_append, List.length_take, List.length_drop]
  omega

theorem flatWrite_nil (a : Bytes) (offset : ℕ) : flatWrite a offset [] = a := by
  simp [flatWrite]

theorem flatWrite_getElem?_outside {a data : Bytes} {offset i : ℕ}
    (h : offset + data.length ≤ a.length) (hi : i < offset ∨ offset + data.length ≤ i) :
    (flatWrite a offset data)[i]? = a[i]? := by
  have htake : (a.take offset).length = offset := by
    rw [List.length_take]
    omega
  rcases hi with hi | hi
  · rw [flatWrite, List.getElem?_append_left (by omega), List.getElem?_take_of_lt hi]
  · rw [flatWrite, List.getElem?_append_right (by omega), List.getElem?_append_right (by omega),
      List.getElem?_drop, htake]
    congr 1
    omega

theorem flatWrite_getElem?_inside {a data : Bytes} {offset i : ℕ}
    (h : offset + data.length ≤ a.length) (hi : i < data.length) :
    (flatWrite a offset data)[offset + i]? = data[i]? := by
  have htake : (a.take offset).length = offset := by
    rw [List.length_take]
    omega
  rw [flatWrite, List.getElem?_append_right (by omega), htake, Nat.add_sub_cancel_left,
    List.getElem?_append_left hi]

theorem flatWrite_same {a data : Bytes} {offset : ℕ}
    (h : ∀ (k : ℕ) (byte : UInt8), data[k]? = some byte → a[offset + k]? = some byte) :
    flatWrite a offset data = a := by
  have hdata : data = (a.drop offset).take data.length := by
    apply List.ext_getElem?
    intro k
    by_cases hk : k < data.length
    · rw [List.getElem?_take_of_lt hk, List.getElem?_drop, List.getElem?_eq_getElem hk,
        h k _ (List.getElem?_eq_getElem hk)]
    · have hlen : ((a.drop offset).take data.length).length ≤ data.length := List.length_take_le _ _
      rw [List.getElem?_eq_none (by omega), List.getElem?_eq_none (by omega)]
  rw [flatWrite, ← List.drop_drop]
  nth_rewrite 1 [hdata]
  rw [List.take_append_drop, List.take_append_drop]

theorem flatRead_append_right {c r : Bytes} {offset length : ℕ} (h : c.length ≤ offset) :
    flatRead (c ++ r) offset length = flatRead r (offset - c.length) length := by
  rw [flatRead, flatRead, List.drop_append, List.drop_eq_nil_of_le h, List.nil_append]

theorem flatRead_append_left {c r : Bytes} {offset length : ℕ} (h : offset + length ≤ c.length) :
    flatRead (c ++ r) offset length = flatRead c offset length := by
  rw [flatRead, flatRead, List.drop_append_of_le_length (by omega), List.take_append_of_le_length]
  rw [List.length_drop]
  omega

theorem flatRead_append {c r : Bytes} {offset m : ℕ} (h : offset ≤ c.length) :
    flatRead (c ++ r) offset (c.length - offset + m) =
      flatRead c offset (c.length - offset) ++ flatRead r 0 m := by
  have hdrop : (c.drop offset).length = c.length - offset := List.length_drop
  rw [flatRead, flatRead, flatRead, List.drop_append_of_le_length h, ← hdrop,
    List.take_length_add_append, List.take_length, List.drop_zero]

theorem flatWrite_append_right {c r data : Bytes} {offset : ℕ} (h : c.length ≤ offset) :
    flatWrite (c ++ r) offset data = c ++ flatWrite r (offset - c.length) data := by
  rw [flatWrite, flatWrite, List.take_append, List.take_of_length_le h, List.drop_append,
    List.drop_eq_nil_of_le (by omega), List.nil_append, List.append_assoc,
    show offset + data.length - c.length = offset - c.length + data.length by omega]

theorem flatWrite_append_left {c r data : Bytes} {offset : ℕ}
    (h : offset + data.length ≤ c.length) :
    flatWrite (c ++ r) offset data = flatWrite c offset data ++ r := by
  rw [flatWrite, flatWrite, List.take_append_of_le_length (by omega),
    List.drop_append_of_le_length h]
  simp

theorem flatWrite_append {c r d e : Bytes} {offset : ℕ} (h : offset + d.length = c.length) :
    flatWrite (c ++ r) offset (d ++ e) = flatWrite c offset d ++ flatWrite r 0 e := by
  have hend : c.drop (offset + d.length) = [] := List.drop_eq_nil_of_le (by omega)
  rw [flatWrite, flatWrite, flatWrite, List.take_append_of_le_length (by omega), hend,
    List.length_append, ← Nat.add_assoc, h, List.drop_append, List.drop_eq_nil_of_le (by omega)]
  simp

/-- States related by `R` give the same results and stay related, as long as the operations are
inside the first `size` bytes. -/
structure Refines (R : σ → τ → Prop) (size : ℕ) (S : Store σ ε) (T : Store τ ε) : Prop where
  read : ∀ s t offset length, R s t → offset + length ≤ size →
    S.read s offset length = T.read t offset length
  write : ∀ s t offset data, R s t → offset + data.length ≤ size →
    (S.write s offset data).1 = (T.write t offset data).1 ∧
      R (S.write s offset data).2 (T.write t offset data).2

theorem run_refines {R : σ → τ → Prop} {size : ℕ} {S : Store σ ε} {T : Store τ ε}
    (h : Refines R size S T) {ops : List Op} {s : σ} {t : τ} (hst : R s t)
    (hops : ∀ op ∈ ops, op.stop ≤ size) :
    (S.run ops s).1 = (T.run ops t).1 ∧ R (S.run ops s).2 (T.run ops t).2 := by
  induction ops generalizing s t with
  | nil => exact ⟨rfl, hst⟩
  | cons op rest ih =>
    have hop := hops op (List.mem_cons_self ..)
    have hrest : ∀ o ∈ rest, o.stop ≤ size := fun o ho => hops o (List.mem_cons_of_mem _ ho)
    cases op with
    | read offset length =>
      obtain ⟨hres, hrel⟩ := ih hst hrest
      refine ⟨?_, hrel⟩
      simp only [Store.run, h.read s t offset length hst hop, hres]
    | write offset data =>
      obtain ⟨hsame, hnext⟩ := h.write s t offset data hst hop
      obtain ⟨hres, hrel⟩ := ih hnext hrest
      refine ⟨?_, hrel⟩
      simp only [Store.run, hsame, hres]

end FlatStore
