import Aiobt.BigEndian

/-! # Framed streams

Records that are read one after another, and payloads behind their length. -/
namespace FramedStreams

open ByteStrings BigEndian

structure IncompleteRead where
  got : Bytes
  expected : ℕ
  deriving DecidableEq, Repr

/-- `readexactly` on the bytes that come before the end of a stream. -/
def readExactly (n : ℕ) (rest : Bytes) : Except IncompleteRead (Bytes × Bytes) :=
  if rest.length < n then .error ⟨rest, n⟩ else .ok (rest.take n, rest.drop n)

/-- A payload behind its length, which takes `k` bytes. -/
def frame (k : ℕ) (payload : Bytes) : Bytes := toBytes k payload.length ++ payload

theorem readExactly_append (b rest : Bytes) : readExactly b.length (b ++ rest) = .ok (b, rest) := by
  have hlen : ¬ (b ++ rest).length < b.length := by
    rw [List.length_append]
    omega
  rw [readExactly, if_neg hlen, List.take_left, List.drop_left]

theorem readExactly_frame (k : ℕ) (payload rest : Bytes) :
    readExactly k (frame k payload ++ rest) = .ok (toBytes k payload.length, payload ++ rest) := by
  have h := readExactly_append (toBytes k payload.length) (payload ++ rest)
  rwa [length_toBytes, ← List.append_assoc] at h

section Many

variable {α ρ ε : Type}

def readMany (read : ρ → Except ε (α × ρ)) : ℕ → ρ → Except ε (List α × ρ)
  | 0, st => .ok ([], st)
  | n + 1, st =>
    match read st with
    | .error e => .error e
    | .ok (a, st) =>
      match readMany read n st with
      | .error e => .error e
      | .ok (more, st) => .ok (a :: more, st)

/-- Records that are each read back with anything behind them are read back one after another. -/
theorem readMany_flatMap {read : ρ → Except ε (α × ρ)} {encode : α → Bytes} {put : Bytes → ρ}
    (records : List α)
    (hread : ∀ a ∈ records, ∀ rest, read (put (encode a ++ rest)) = .ok (a, put rest))
    (rest : Bytes) :
    readMany read records.length (put (records.flatMap encode ++ rest)) =
      .ok (records, put rest) := by
  induction records with
  | nil => rfl
  | cons a more ih =>
    have hfirst := hread a List.mem_cons_self (more.flatMap encode ++ rest)
    have hmore := ih fun b hb => hread b (List.mem_cons_of_mem _ hb)
    rw [List.flatMap_cons, List.append_assoc, List.length_cons]
    simp only [readMany, hfirst, hmore]

end Many

end FramedStreams
