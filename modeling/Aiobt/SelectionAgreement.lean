import Aiobt.PieceSearch
import Aiobt.PieceTrackerCompiled

/-! # The two trackers select alike

Calls of the pure and of the compiled tracker side by side. A set of indices is iterated over in
any order, and not in the same one by both. -/
namespace SelectionAgreement

open ByteStrings MachineIntegers PieceTracker PieceSearch LeastByKey
open PieceTrackerCompiled (Failure asInt)

def updateLoop : List ℕ → (ℕ → Option ℕ) → ℕ → Option ℕ
  | [], avail => avail
  | idx :: rest, avail =>
    updateLoop rest (Function.update avail idx (some ((avail idx).getD 0 + 1)))

def removeLoop : List ℕ → (ℕ → Option ℕ) → ℕ → Option ℕ
  | [], avail => avail
  | idx :: rest, avail =>
    let count := (avail idx).getD 0
    removeLoop rest (Function.update avail idx (if count ≤ 1 then none else some (count - 1)))

variable {t t' : Tracker} {xs ys : List ℕ} {avail : ℕ → Option ℕ}

theorem updateLoop_apply (hxs : xs.Nodup) (avail : ℕ → Option ℕ) (i : ℕ) :
    updateLoop xs avail i = if i ∈ xs then some ((avail i).getD 0 + 1) else avail i := by
  induction xs generalizing avail with
  | nil => rfl
  | cons idx rest ih =>
    obtain ⟨hnot, hrest⟩ := List.nodup_cons.mp hxs
    rw [updateLoop, ih hrest]
    by_cases hi : i = idx
    · subst hi
      simp [hnot]
    · simp [hi]

theorem removeLoop_apply (hxs : xs.Nodup) (avail : ℕ → Option ℕ) (i : ℕ) :
    removeLoop xs avail i =
      if i ∈ xs then
        if (avail i).getD 0 ≤ 1 then none else some ((avail i).getD 0 - 1)
      else avail i := by
  induction xs generalizing avail with
  | nil => rfl
  | cons idx rest ih =>
    obtain ⟨hnot, hrest⟩ := List.nodup_cons.mp hxs
    rw [removeLoop, ih hrest]
    by_cases hi : i = idx
    · subst hi
      simp [hnot]
    · simp [hi]

theorem updateLoop_eq (t : Tracker) (hxs : xs.Nodup) :
    updateLoop xs t.availability = (t.updateAvailability xs.toFinset).availability := by
  funext i
  rw [updateLoop_apply hxs]
  simp [Tracker.updateAvailability]

theorem removeLoop_eq (t : Tracker) (hxs : xs.Nodup) :
    removeLoop xs t.availability = (t.removeAvailability xs.toFinset).availability := by
  funext i
  rw [removeLoop_apply hxs]
  simp [Tracker.removeAvailability]

/-- Counts that fit are changed as they are by the pure tracker. -/
theorem compiled_removeLoop (xs : List ℕ) (avail : ℕ → Option ℕ)
    (hfits : ∀ i, (avail i).getD 0 < 2 ^ 31) :
    PieceTrackerCompiled.removeLoop xs avail = .ok (removeLoop xs avail) := by
  induction xs generalizing avail with
  | nil => rfl
  | cons idx rest ih =>
    have hidx := hfits idx
    have hcount : asInt ((avail idx).getD 0 : ℕ) = .ok (((avail idx).getD 0 : ℕ) : ℤ) := by
      apply if_pos
      unfold Fits intHalf
      omega
    rw [PieceTrackerCompiled.removeLoop, removeLoop, hcount]
    show (if (((avail idx).getD 0 : ℕ) : ℤ) ≤ 1 then _ else _) = _
    by_cases hle : (avail idx).getD 0 ≤ 1
    · rw [if_pos (by omega), if_pos hle]
      apply ih
      intro i
      by_cases hi : i = idx
      · simp [hi]
      · simpa [hi] using hfits i
    · have hcast : (cInt ((((avail idx).getD 0 : ℕ) : ℤ) - 1)).toNat = (avail idx).getD 0 - 1 := by
        rw [cInt_eq_iff.mpr ⟨by omega, by omega⟩]
        omega
      rw [if_neg (by omega), if_neg hle, hcast]
      apply ih
      intro i
      by_cases hi : i = idx
      · simp only [hi, Function.update_self, Option.getD_some]
        omega
      · simpa [hi] using hfits i

/-- A set is given as the list of its elements, in the order of its iteration. -/
inductive Call where
  | markHave (index : ℕ)
  | markPending (index : ℕ)
  | markFailed (index : ℕ)
  | updateAvailability (peerPieces : List ℕ)
  | removeAvailability (peerPieces : List ℕ)

def pureCall : Call → Tracker → Tracker
  | .markHave index, t => t.markHave index
  | .markPending index, t => t.markPending index
  | .markFailed index, t => t.markFailed index
  | .updateAvailability peerPieces, t =>
    { t with availability := updateLoop peerPieces t.availability }
  | .removeAvailability peerPieces, t =>
    { t with availability := removeLoop peerPieces t.availability }

def compiledCall : Call → Tracker → Except Failure Tracker
  | .markHave index, t => .ok (t.markHave index)
  | .markPending index, t => .ok (t.markPending index)
  | .markFailed index, t => .ok (t.markFailed index)
  | .updateAvailability peerPieces, t =>
    .ok { t with availability := updateLoop peerPieces t.availability }
  | .removeAvailability peerPieces, t => do
    let avail ← PieceTrackerCompiled.removeLoop peerPieces t.availability
    return { t with availability := avail }

def pureRun : List Call → Tracker → Tracker
  | [], t => t
  | call :: rest, t => pureRun rest (pureCall call t)

def compiledRun : List Call → Tracker → Except Failure Tracker
  | [], t => .ok t
  | call :: rest, t => do compiledRun rest (← compiledCall call t)

inductive Same : Call → Call → Prop
  | markHave (index : ℕ) : Same (.markHave index) (.markHave index)
  | markPending (index : ℕ) : Same (.markPending index) (.markPending index)
  | markFailed (index : ℕ) : Same (.markFailed index) (.markFailed index)
  | updateAvailability {xs ys : List ℕ} : xs.Nodup → xs.Perm ys →
      Same (.updateAvailability xs) (.updateAvailability ys)
  | removeAvailability {xs ys : List ℕ} : xs.Nodup → xs.Perm ys →
      Same (.removeAvailability xs) (.removeAvailability ys)

def CountsFit (t : Tracker) : Prop := ∀ i, t.rarity i < 2 ^ 31

def FitsThroughout : List Call → Tracker → Prop
  | [], t => CountsFit t
  | call :: rest, t => CountsFit t ∧ FitsThroughout rest (pureCall call t)

structure Alike (t t' : Tracker) : Prop where
  pieceCount : t'.pieceCount = t.pieceCount
  got : t'.got = t.got
  pending : t'.pending = t.pending
  failed : t'.failed = t.failed
  availability : t'.availability = t.availability

theorem Alike.call {call call' : Call} (h : Alike t t') (hsame : Same call call')
    (hfits : CountsFit t) :
    ∃ next, compiledCall call' t' = .ok next ∧ Alike (pureCall call t) next := by
  cases hsame with
  | markHave index =>
    refine ⟨_, rfl, h.pieceCount, ?_, ?_, ?_, h.availability⟩
    · simp only [pureCall, Tracker.markHave, h.got]
    · simp only [pureCall, Tracker.markHave, h.pending]
    · simp only [pureCall, Tracker.markHave, h.failed]
  | markPending index =>
    refine ⟨_, rfl, h.pieceCount, h.got, ?_, h.failed, h.availability⟩
    simp only [pureCall, Tracker.markPending, h.pending]
  | markFailed index =>
    refine ⟨_, rfl, h.pieceCount, h.got, ?_, ?_, h.availability⟩
    · simp only [pureCall, Tracker.markFailed, h.pending]
    · simp only [pureCall, Tracker.markFailed, h.failed]
  | @updateAvailability xs ys hxs hperm =>
    refine ⟨_, rfl, h.pieceCount, h.got, h.pending, h.failed, ?_⟩
    simp only [pureCall, h.availability]
    funext i
    rw [updateLoop_apply hxs, updateLoop_apply (hperm.nodup hxs)]
    simp only [hperm.mem_iff]
  | @removeAvailability xs ys hxs hperm =>
    have hloop := compiled_removeLoop ys t'.availability (by rw [h.availability]; exact hfits)
    refine ⟨{ t' with availability := removeLoop ys t'.availability }, ?_, h.pieceCount, h.got,
      h.pending, h.failed, ?_⟩
    · rw [compiledCall, hloop]
      rfl
    · simp only [pureCall, h.availability]
      funext i
      rw [removeLoop_apply hxs, removeLoop_apply (hperm.nodup hxs)]
      simp only [hperm.mem_iff]

theorem Alike.run {calls calls' : List Call} (h : Alike t t') (hsame : List.Forall₂ Same calls calls')
    (hfits : FitsThroughout calls t) :
    ∃ last, compiledRun calls' t' = .ok last ∧ Alike (pureRun calls t) last ∧
      CountsFit (pureRun calls t) := by
  induction hsame generalizing t t' with
  | nil => exact ⟨t', rfl, h, hfits⟩
  | @cons call call' rest rest' hcall _ ih =>
    obtain ⟨next, hnext, halike⟩ := h.call hcall hfits.1
    obtain ⟨last, hlast, hdone⟩ := ih halike hfits.2
    refine ⟨last, ?_, hdone⟩
    rw [compiledRun, hnext]
    exact hlast

theorem pureRun_pieceCount (calls : List Call) (t : Tracker) :
    (pureRun calls t).pieceCount = t.pieceCount := by
  induction calls generalizing t with
  | nil => rfl
  | cons call rest ih =>
    rw [pureRun, ih]
    cases call <;> rfl

theorem rarity_call {call call' : Call} (hsame : Same call call') (t : Tracker) (i : ℕ) :
    (pureCall call t).rarity i ≤ t.rarity i + 1 := by
  cases hsame with
  | markHave | markPending | markFailed => exact Nat.le_succ _
  | updateAvailability hxs _ =>
    simp only [pureCall, Tracker.rarity, updateLoop_apply hxs]
    split
    · exact Nat.le_refl _
    · exact Nat.le_succ _
  | removeAvailability hxs _ =>
    simp only [pureCall, Tracker.rarity, removeLoop_apply hxs]
    split
    · split
      · exact Nat.zero_le _
      · simp only [Option.getD_some]
        omega
    · exact Nat.le_succ _

/-- Each call counts a piece once at most. -/
theorem fits_of_length {calls calls' : List Call} (hsame : List.Forall₂ Same calls calls')
    (hfits : ∀ i, t.rarity i + calls.length < 2 ^ 31) : FitsThroughout calls t := by
  induction hsame generalizing t with
  | nil => exact hfits
  | @cons call call' rest rest' hcall _ ih =>
    constructor
    · intro i
      have hi := hfits i
      omega
    · apply ih
      intro i
      have hi := hfits i
      have hcount := rarity_call hcall t i
      rw [List.length_cons] at hi
      omega

def openBefore (t : Tracker) (i : ℕ) : Set ℕ := {j | j < i ∧ j ∉ t.got ∧ j ∉ t.pending}

variable {i n : ℕ} {bestAvail bestIdx : ℤ}

theorem openBefore_succ_of_taken (h : i ∈ t.got ∨ i ∈ t.pending) :
    openBefore t (i + 1) = openBefore t i := by
  ext j
  constructor
  · rintro ⟨hlt, hgot, hpending⟩
    have hne : j ≠ i := by
      rintro rfl
      exact h.elim hgot hpending
    exact ⟨by omega, hgot, hpending⟩
  · rintro ⟨hlt, hfree⟩
    exact ⟨by omega, hfree⟩

theorem openBefore_succ (h : ¬ (i ∈ t.got ∨ i ∈ t.pending)) :
    openBefore t (i + 1) = insert i (openBefore t i) := by
  rw [not_or] at h
  ext j
  constructor
  · rintro ⟨hlt, hfree⟩
    by_cases hj : j = i
    · exact Or.inl hj
    · exact Or.inr ⟨by omega, hfree⟩
  · rintro (rfl | ⟨hlt, hfree⟩)
    · exact ⟨by omega, h⟩
    · exact ⟨by omega, hfree⟩

/-- What the loop has found among the pieces before `i`. -/
inductive Best (t : Tracker) (i : ℕ) : ℤ → ℤ → Prop
  | nothing (bestAvail : ℤ) : (∀ j, j ∉ openBefore t i) → Best t i bestAvail (-1)
  | found (b : ℕ) : LeastBy t.rarity (openBefore t i) b → Best t i (t.rarity b) b

theorem Best.taken (h : Best t i bestAvail bestIdx) (htaken : i ∈ t.got ∨ i ∈ t.pending) :
    Best t (i + 1) bestAvail bestIdx := by
  have hsame := openBefore_succ_of_taken htaken
  cases h with
  | nothing _ hnone => exact .nothing bestAvail (by rwa [hsame])
  | found b hb => exact .found b (by rwa [hsame])

theorem Best.compare (h : Best t i bestAvail bestIdx) (hopen : ¬ (i ∈ t.got ∨ i ∈ t.pending)) :
    if bestIdx = -1 ∨ (t.rarity i : ℤ) < bestAvail then Best t (i + 1) (t.rarity i) i
    else Best t (i + 1) bestAvail bestIdx := by
  have hinsert := openBefore_succ hopen
  cases h with
  | nothing _ hnone =>
    rw [if_pos (Or.inl rfl)]
    apply Best.found
    rw [hinsert, Set.eq_empty_iff_forall_notMem.mpr hnone, insert_empty_eq]
    exact leastBy_singleton t.rarity i
  | found b hb =>
    have hnext := hb.insert fun j hj => hj.1
    rw [← hinsert] at hnext
    by_cases hlt : t.rarity i < t.rarity b
    · rw [if_pos hlt] at hnext
      rw [if_pos (Or.inr (by omega))]
      exact .found i hnext
    · rw [if_neg hlt] at hnext
      rw [if_neg (by omega)]
      exact .found b hnext

theorem selectLoop_best (hfits : CountsFit t) (h : Best t i bestAvail bestIdx)
    (hn : i + n ≤ 2 ^ 31) :
    ∃ last lastAvail, PieceTrackerCompiled.selectLoop t n i bestAvail bestIdx = .ok last ∧
      Best t (i + n) lastAvail last := by
  induction n generalizing i bestAvail bestIdx with
  | zero => exact ⟨bestIdx, bestAvail, rfl, h⟩
  | succ n ih =>
    rw [show i + (n + 1) = i + 1 + n by omega, PieceTrackerCompiled.selectLoop]
    by_cases htaken : i ∈ t.got ∨ i ∈ t.pending
    · rw [if_pos htaken]
      exact ih (h.taken htaken) (by omega)
    · have hcount : asInt (t.rarity i) = .ok (t.rarity i : ℤ) := by
        have hi := hfits i
        apply if_pos
        unfold Fits intHalf
        omega
      have hcast : cInt i = i := cInt_eq_iff.mpr ⟨by omega, by omega⟩
      have hnext := h.compare htaken
      rw [if_neg htaken, hcount, hcast]
      show ∃ last lastAvail, (if bestIdx = -1 ∨ (t.rarity i : ℤ) < bestAvail then _ else _) = _ ∧ _
      by_cases hless : bestIdx = -1 ∨ (t.rarity i : ℤ) < bestAvail
      · rw [if_pos hless] at hnext ⊢
        exact ih hnext (by omega)
      · rw [if_neg hless] at hnext ⊢
        exact ih hnext (by omega)

theorem openBefore_pieceCount (t : Tracker) :
    openBefore t t.pieceCount.toNat = {i | i ∈ t.candidates} := by
  ext i
  exact mem_candidates.symm

theorem selectPiece_agrees (h : Alike t t') (hfits : CountsFit t) (hcount : t.pieceCount < 2 ^ 31)
    (hlow : -2 ^ 31 ≤ t.pieceCount) :
    PieceTrackerCompiled.selectPiece t' = .ok (t.selectPiece.map Nat.cast) := by
  have hfits' : CountsFit t' := by
    intro i
    have hi := hfits i
    rw [Tracker.rarity] at hi ⊢
    rwa [h.availability]
  have hstart : Best t' 0 0 (-1) := .nothing 0 fun j hj => Nat.not_lt_zero j hj.1
  obtain ⟨last, lastAvail, hloop, hbest⟩ :=
    selectLoop_best (n := t'.pieceCount.toNat) hfits' hstart (by rw [h.pieceCount]; omega)
  have hpc : asInt t'.pieceCount = .ok t'.pieceCount := by
    rw [h.pieceCount]
    apply if_pos
    unfold Fits intHalf
    omega
  have hcandidates : {i | i ∈ t'.candidates} = {i | i ∈ t.candidates} := by
    simp only [Tracker.candidates, h.pieceCount, h.got, h.pending]
  have hrarity : t'.rarity = t.rarity := by
    funext i
    rw [Tracker.rarity, Tracker.rarity, h.availability]
  rw [PieceTrackerCompiled.selectPiece, hpc]
  show (do let bestIdx ← PieceTrackerCompiled.selectLoop t' t'.pieceCount.toNat 0 0 (-1)
           return if bestIdx = -1 then none else some bestIdx) = _
  rw [hloop]
  rw [Nat.zero_add] at hbest
  cases hbest with
  | nothing _ hnone =>
    rw [openBefore_pieceCount, hcandidates] at hnone
    have hempty : t.selectPiece = none :=
      selectPiece_eq_none.mpr (List.eq_nil_iff_forall_not_mem.mpr hnone)
    rw [hempty]
    rfl
  | found b hb =>
    rw [openBefore_pieceCount, hcandidates, hrarity] at hb
    cases hsel : t.selectPiece with
    | none =>
      have hmem : b ∈ t.candidates := hb.mem
      rw [selectPiece_eq_none.mp hsel] at hmem
      cases hmem
    | some i =>
      obtain rfl := (selectPiece_leastBy hsel).unique hb
      show Except.ok (if (i : ℤ) = -1 then none else some (i : ℤ)) = _
      rw [if_neg (by omega)]
      rfl

theorem initially_alike {pieceLength totalLength : ℤ} {piecesRaw : Bytes}
    (ht : PieceTracker.init pieceLength totalLength piecesRaw = some t)
    (ht' : PieceTrackerCompiled.init pieceLength totalLength piecesRaw = .ok t')
    (hcount : t'.pieceCount = t.pieceCount) :
    Alike t t' ∧ -2 ^ 31 ≤ t.pieceCount := by
  unfold PieceTracker.init at ht
  unfold PieceTrackerCompiled.init at ht'
  split at ht
  · cases ht
  · split at ht'
    · cases ht'
    · obtain rfl := Option.some.inj ht
      obtain rfl := Except.ok.inj ht'
      refine ⟨⟨hcount, rfl, rfl, rfl, rfl⟩, ?_⟩
      rw [← hcount]
      simp only
      split
      · exact (signedWrap_fits (by decide) _).1
      · exact (signedWrap_fits (by decide) _).1

/-- Trackers of the same piece count, made from the same arguments and given the same calls, agree
on their sets and counts, and select the rarest piece that is neither had nor pending, the first of
those that are equally rare. -/
theorem trackers_select_alike {pieceLength totalLength : ℤ} {piecesRaw : Bytes}
    {calls calls' : List Call} (ht : PieceTracker.init pieceLength totalLength piecesRaw = some t)
    (ht' : PieceTrackerCompiled.init pieceLength totalLength piecesRaw = .ok t')
    (hcount : t'.pieceCount = t.pieceCount) (hsmall : t.pieceCount < 2 ^ 31)
    (hsame : List.Forall₂ Same calls calls') (hfits : FitsThroughout calls t) :
    ∃ last', compiledRun calls' t' = .ok last' ∧
      let last := pureRun calls t
      last'.got = last.got ∧ last'.pending = last.pending ∧
        last'.availability = last.availability ∧
        PieceTrackerCompiled.selectPiece last' = .ok (last.selectPiece.map Nat.cast) ∧
        (last.selectPiece = none ↔
          ∀ i : ℕ, (i : ℤ) < t.pieceCount → i ∈ last.got ∨ i ∈ last.pending) ∧
        ∀ i, last.selectPiece = some i →
          LeastBy last.rarity {j : ℕ | (j : ℤ) < t.pieceCount ∧ j ∉ last.got ∧ j ∉ last.pending} i := by
  obtain ⟨halike, hlow⟩ := initially_alike ht ht' hcount
  obtain ⟨last', hlast', hdone, hfitsLast⟩ := halike.run hsame hfits
  have hpieces := pureRun_pieceCount calls t
  have hopen : {j | j ∈ (pureRun calls t).candidates} =
      {j : ℕ | (j : ℤ) < t.pieceCount ∧ j ∉ (pureRun calls t).got ∧ j ∉ (pureRun calls t).pending} := by
    ext j
    show j ∈ (pureRun calls t).candidates ↔ _
    rw [mem_candidates, hpieces, Int.lt_toNat]
    rfl
  refine ⟨last', hlast', hdone.got, hdone.pending, hdone.availability, ?_, ?_, fun i hi => ?_⟩
  · exact selectPiece_agrees hdone hfitsLast (hpieces.symm ▸ hsmall) (hpieces.symm ▸ hlow)
  · rw [selectPiece_eq_none, List.eq_nil_iff_forall_not_mem]
    constructor
    · intro hnone i hi
      by_contra htaken
      have hmem : i ∈ {j | j ∈ (pureRun calls t).candidates} := by
        rw [hopen]
        exact ⟨hi, not_or.mp htaken⟩
      exact hnone i hmem
    · intro hall i hmem
      have hi : i ∈ {j | j ∈ (pureRun calls t).candidates} := hmem
      rw [hopen] at hi
      exact (hall i hi.1).elim hi.2.1 hi.2.2
  · rw [← hopen]
    exact selectPiece_leastBy hi

/-- With lengths that make sense both trackers have as many pieces. -/
theorem pieceCount_agrees {pieceLength totalLength : ℤ} {piecesRaw : Bytes}
    (h1 : 1 ≤ pieceLength) (h0 : 0 ≤ totalLength)
    (ht : PieceTracker.init pieceLength totalLength piecesRaw = some t)
    (ht' : PieceTrackerCompiled.init pieceLength totalLength piecesRaw = .ok t')
    (hsmall : t.pieceCount < 2 ^ 31) : t'.pieceCount = t.pieceCount := by
  have hfits : ¬ (¬ Fits ssizeHalf pieceLength ∨ ¬ Fits ssizeHalf totalLength) := by
    intro hover
    rw [PieceTrackerCompiled.init, if_pos hover] at ht'
    cases ht'
  rw [not_or, not_not, not_not] at hfits
  obtain ⟨t'', hinit, hcount, -⟩ :=
    PieceTrackerCompiled.init_eq h1 hfits.1.2 h0 hfits.2.2 ht hsmall
  obtain rfl := Except.ok.inj (ht'.symm.trans hinit)
  exact hcount

/-- Two peers come and one goes; piece 1 is the rarest, and is pending at the end. -/
def twoPeersCalls (order : List ℕ → List ℕ) : List Call :=
  [.updateAvailability (order [0, 1, 2]), .updateAvailability (order [0, 2, 3]), .markHave 3,
    .removeAvailability (order [0, 1]), .markPending 1]

theorem trackers_select_alike_twoPeers :
    ∃ t t' last', PieceTracker.init 10 40 [] = some t ∧ PieceTrackerCompiled.init 10 40 [] = .ok t' ∧
      compiledRun (twoPeersCalls List.reverse) t' = .ok last' ∧
      PieceTrackerCompiled.selectPiece last' = .ok (some 0) ∧
      (pureRun (twoPeersCalls id) t).selectPiece = some 0 := by
  have hsame : List.Forall₂ Same (twoPeersCalls id) (twoPeersCalls List.reverse) :=
    .cons (.updateAvailability (by decide) (by decide)) (.cons
      (.updateAvailability (by decide) (by decide)) (.cons (.markHave 3) (.cons
        (.removeAvailability (by decide) (by decide)) (.cons (.markPending 1) .nil))))
  obtain ⟨t, t', ht, ht', hsel, hcalls⟩ : ∃ t t', PieceTracker.init 10 40 [] = some t ∧
      PieceTrackerCompiled.init 10 40 [] = .ok t' ∧
      (pureRun (twoPeersCalls id) t).selectPiece = some 0 ∧ FitsThroughout (twoPeersCalls id) t := by
    refine ⟨_, _, rfl, rfl, by decide +kernel, ?_⟩
    exact fits_of_length hsame fun _ => show 0 + 5 < 2 ^ 31 by decide
  have hsmall : t.pieceCount < 2 ^ 31 := by
    obtain rfl := Option.some.inj ht
    decide
  obtain ⟨last', hrun, -, -, -, hselect, -⟩ := trackers_select_alike ht ht'
    (pieceCount_agrees (by decide) (by decide) ht ht' hsmall) hsmall hsame hcalls
  rw [hsel] at hselect
  exact ⟨t, t', last', ht, ht', hrun, hselect, hsel⟩

end SelectionAgreement
