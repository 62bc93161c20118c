import Aiobt.ByteStrings

/-! # Coroutines that read a stream

A coroutine waits for bytes of a stream, and the stream comes in segments of any size: only
`readexactly` gets the number of bytes that it asks for. -/
namespace SegmentedReads

open ByteStrings

inductive Demand where
  | exactly (n : ℕ)
  | upTo (n : ℕ)
  | drained
  deriving DecidableEq, Repr

def Demand.Serves : Demand → Bytes → Prop
  | .exactly n, segment => segment.length = n
  | .upTo n, segment => segment.length ≤ n ∧ (segment = [] → n = 0)
  | .drained, segment => segment = []

instance (d : Demand) (segment : Bytes) : Decidable (d.Serves segment) := by
  cases d <;> unfold Demand.Serves <;> infer_instance

def Demand.Ready (d : Demand) (rest : Bytes) : Prop :=
  ∃ segment after, rest = segment ++ after ∧ d.Serves segment

inductive Outcome (σ ρ ε : Type) where
  | waits (st : σ)
  | returns (r : ρ)
  | raises (e : ε)

variable {σ ρ ε : Type}

/-- `feed` is what happens from one await to the next: the bytes written, and what comes of it. -/
structure Coroutine (σ ρ ε : Type) where
  demand : σ → Demand
  feed : σ → Bytes → Bytes × Outcome σ ρ ε
  eof : σ → Outcome σ ρ ε

variable {M : Coroutine σ ρ ε}

/-- What comes of a coroutine that is given the segments; `none` where one does not serve it. -/
def run (M : Coroutine σ ρ ε) : Outcome σ ρ ε → List Bytes → Option (Outcome σ ρ ε)
  | o, [] => some o
  | .waits st, segment :: more =>
    if (M.demand st).Serves segment then run M (M.feed st segment).2 more else none
  | .returns _, _ :: _ => none
  | .raises _, _ :: _ => none

theorem run_cons {o o' : Outcome σ ρ ε} {segment : Bytes} {more : List Bytes}
    (h : run M o (segment :: more) = some o') :
    ∃ st, o = .waits st ∧ (M.demand st).Serves segment ∧
      run M (M.feed st segment).2 more = some o' := by
  cases o with
  | waits st =>
    rw [run] at h
    split at h
    · next hserves => exact ⟨st, rfl, hserves, h⟩
    · cases h
  | returns r => cases h
  | raises e => cases h

theorem run_waits {st : σ} {segment : Bytes} (h : (M.demand st).Serves segment)
    (more : List Bytes) :
    run M (.waits st) (segment :: more) = run M (M.feed st segment).2 more := by
  rw [run, if_pos h]

theorem run_one {st : σ} {segment : Bytes} (h : (M.demand st).Serves segment) :
    run M (.waits st) [segment] = some (M.feed st segment).2 := by
  rw [run_waits h]
  rfl

theorem run_append {o o' o'' : Outcome σ ρ ε} {segments more : List Bytes}
    (h : run M o segments = some o') (hmore : run M o' more = some o'') :
    run M o (segments ++ more) = some o'' := by
  induction segments generalizing o with
  | nil =>
    obtain rfl := Option.some.inj h
    exact hmore
  | cons segment rest ih =>
    obtain ⟨st, rfl, hserves, hrest⟩ := run_cons h
    rw [List.cons_append, run_waits hserves]
    exact ih hrest

/-- What each segment keeps of the outcome and the bytes to come holds in the end. -/
theorem run_invariant {P : Outcome σ ρ ε → Bytes → Prop}
    (hstep : ∀ st segment rest, (M.demand st).Serves segment → P (.waits st) (segment ++ rest) →
      P (M.feed st segment).2 rest)
    {segments : List Bytes} {o o' : Outcome σ ρ ε} {rest : Bytes} (hrun : run M o segments = some o')
    (h : P o (segments.flatten ++ rest)) : P o' rest := by
  induction segments generalizing o with
  | nil =>
    obtain rfl := Option.some.inj hrun
    exact h
  | cons segment more ih =>
    obtain ⟨st, rfl, hserves, hmore⟩ := run_cons hrun
    apply ih hmore
    apply hstep st segment _ hserves
    rwa [List.flatten_cons, List.append_assoc] at h

/-- Where a coroutine is, with `rest` to come: it can go on, or it has returned what `P` says. -/
def Outcome.Meets (M : Coroutine σ ρ ε) (rest : Bytes) (P : ρ → Prop) : Outcome σ ρ ε → Prop
  | .waits st => (M.demand st).Ready rest
  | .returns r => P r
  | .raises _ => False

theorem ready_exactly {n : ℕ} {rest : Bytes} (h : n ≤ rest.length) :
    (Demand.exactly n).Ready rest :=
  ⟨rest.take n, rest.drop n, (List.take_append_drop n rest).symm, List.length_take_of_le h⟩

theorem ready_upTo {n : ℕ} {rest : Bytes} (h : rest ≠ []) : (Demand.upTo n).Ready rest := by
  refine ⟨rest.take n, rest.drop n, (List.take_append_drop n rest).symm, ?_, ?_⟩
  · exact List.length_take_le n rest
  · intro hnil
    rcases List.take_eq_nil_iff.mp hnil with hn | hrest
    · exact hn
    · exact absurd hrest h

theorem ready_drained (rest : Bytes) : Demand.drained.Ready rest := ⟨[], rest, rfl, rfl⟩

/-- The segment that brings the byte before `m` also brings bytes from `h` on. -/
def overshoots : ℕ → ℕ → List Bytes → Bool
  | _, _, [] => false
  | m, h, segment :: more =>
    if segment.length < m then overshoots (m - segment.length) (h - segment.length) more
    else decide (h < segment.length)

/-- A coroutine looks for a marker, of which `marker` bytes are missing, asks for no more than it
needs once it has found it, and may be idle before it returns. It leaves the last `tail` bytes alone
unless the segment with the end of the marker overshoots. -/
theorem run_overshoots {P : Outcome σ ρ ε → Bytes → Prop} (idle : σ → Prop) (marker : σ → ℕ)
    (tail : ℕ)
    (hstep : ∀ st segment rest, (M.demand st).Serves segment → P (.waits st) (segment ++ rest) →
      P (M.feed st segment).2 rest)
    (hwait : ∀ st rest, ¬ idle st → P (.waits st) rest → tail ≤ rest.length)
    (hidle : ∀ st segment, idle st → (M.demand st).Serves segment →
      segment = [] ∧ ∀ st', (M.feed st segment).2 ≠ .waits st')
    (hshort : ∀ st segment rest, (M.demand st).Serves segment → P (.waits st) (segment ++ rest) →
      segment.length < marker st →
      ∃ st', (M.feed st segment).2 = .waits st' ∧ marker st' = marker st - segment.length ∧
        ¬ idle st')
    (hlong : ∀ st segment rest st', (M.demand st).Serves segment →
      P (.waits st) (segment ++ rest) → marker st ≤ segment.length →
      (M.feed st segment).2 = .waits st' → marker st' = 0)
    (hexact : ∀ st segment rest, (M.demand st).Serves segment → P (.waits st) (segment ++ rest) →
      ¬ idle st → marker st = 0 → tail ≤ rest.length)
    {segments : List Bytes} {st : σ} {o : Outcome σ ρ ε} {rest : Bytes} (hst : ¬ idle st)
    (hrun : run M (.waits st) segments = some o) (h : P (.waits st) (segments.flatten ++ rest)) :
    tail ≤ rest.length ↔
      overshoots (marker st) ((segments.flatten ++ rest).length - tail) segments = false := by
  induction segments generalizing st with
  | nil =>
    have hle := hwait st rest hst h
    simp [overshoots, hle]
  | cons segment more ih =>
    obtain ⟨_, heq, hserves, hmore⟩ := run_cons hrun
    cases heq
    have htotal := hwait st _ hst h
    rw [List.flatten_cons, List.append_assoc] at h htotal ⊢
    have hnext := hstep st segment _ hserves h
    rw [List.length_append] at htotal
    rw [overshoots, List.length_append]
    split
    · next hlt =>
      obtain ⟨st', hfeed, hmarker, hst'⟩ := hshort st segment _ hserves h hlt
      rw [hfeed] at hmore hnext
      rw [ih hst' hmore hnext, hmarker]
      have hle := hwait st' _ hst' hnext
      have harith : segment.length + (more.flatten ++ rest).length - tail - segment.length =
          (more.flatten ++ rest).length - tail := by omega
      rw [harith]
    · next hge =>
      rw [decide_eq_false_iff_not]
      cases more with
      | nil =>
        rw [List.flatten_nil, List.nil_append] at htotal ⊢
        omega
      | cons segment' more' =>
        obtain ⟨st', hfeed, hserves', hmore'⟩ := run_cons hmore
        rw [hfeed] at hmore hnext
        by_cases hst' : idle st'
        · obtain ⟨rfl, hends⟩ := hidle st' segment' hst' hserves'
          cases more' with
          | nil =>
            rw [List.flatten_cons, List.flatten_nil, List.nil_append, List.nil_append] at htotal ⊢
            omega
          | cons _ _ =>
            obtain ⟨st'', hwaits, -⟩ := run_cons hmore'
            exact absurd hwaits (hends st'')
        · have hle := hwait st' _ hst' hnext
          have hzero := hlong st segment _ st' hserves h (by omega) hfeed
          have hleft := hexact st' segment' _ hserves'
            (by rwa [List.flatten_cons, List.append_assoc] at hnext) hst' hzero
          rw [ih hst' hmore hnext, hzero, overshoots, if_neg (Nat.not_lt_zero _),
            decide_eq_false_iff_not]
          rw [List.flatten_cons, List.append_assoc, List.length_append] at hle ⊢
          omega

end SegmentedReads
