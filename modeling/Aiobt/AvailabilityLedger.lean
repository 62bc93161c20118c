import Aiobt.AvailabilityCounts
import Aiobt.CountMaps
import Aiobt.SelectionAgreement

/-! # Availability is a multiset

The calls of `update_availability` and `remove_availability` by any number of peers. Sets and dicts
only hash and compare their elements, so the indices are of any type. -/
namespace AvailabilityLedger

open CountMaps PieceTracker

variable {ι κ : Type}

/-- A call by a peer; sets enter with `update_availability` and leave with `remove_availability`. -/
structure Call (ι κ : Type) where
  peer : ι
  kind : Kind
  order : List κ
  nodup : order.Nodup
  deriving DecidableEq

def Call.pieces (c : Call ι κ) : Finset κ := ⟨c.order, Multiset.coe_nodup.mpr c.nodup⟩

def Call.cut (c : Call ι κ) (n : ℕ) : Call ι κ :=
  { c with order := c.order.take n, nodup := c.nodup.sublist (List.take_sublist n c.order) }

section

variable [DecidableEq ι] {c d : Call ι κ} {before after : List (Call ι κ)}

/-- Every peer makes the same calls in the same order. -/
def Interleaves (calls calls' : List (Call ι κ)) : Prop :=
  ∀ p, calls'.filter (fun c => c.peer = p) = calls.filter fun c => c.peer = p

/-- Calls of different peers change places. -/
theorem interleaves_swap (hne : c.peer ≠ d.peer) :
    Interleaves (before ++ c :: d :: after) (before ++ d :: c :: after) := by
  intro p
  rw [List.filter_append, List.filter_append]
  refine congrArg _ ?_
  by_cases hc : c.peer = p
  · have hd : d.peer ≠ p := fun hd => hne (hc.trans hd.symm)
    simp [hc, hd]
  · simp [List.filter_cons, hc]

end

variable [DecidableEq κ]

def updateAvailability : List κ → Counts κ → Counts κ
  | [], avail => avail
  | idx :: rest, avail =>
    updateAvailability rest (Function.update avail idx (some ((avail idx).getD 0 + 1)))

def removeAvailability : List κ → Counts κ → Counts κ
  | [], avail => avail
  | idx :: rest, avail =>
    let count := (avail idx).getD 0
    removeAvailability rest
      (if count ≤ 1 then Function.update avail idx none
      else Function.update avail idx (some (count - 1)))

def noCounts : Counts κ := fun _ => none

def Call.apply (c : Call ι κ) (avail : Counts κ) : Counts κ :=
  match c.kind with
  | .enters => updateAvailability c.order avail
  | .leaves => removeAvailability c.order avail

def run : List (Call ι κ) → Counts κ → Counts κ
  | [], avail => avail
  | c :: rest, avail => run rest (c.apply avail)

section

variable {calls calls' : List (Call ι κ)} {out left : Multiset (Finset κ)}

theorem updateAvailability_eq (order : List κ) (avail : Counts κ) :
    updateAvailability order avail = order.foldl insertOne avail := by
  induction order generalizing avail with
  | nil => rfl
  | cons idx rest ih => exact ih _

theorem removeAvailability_eq (order : List κ) (avail : Counts κ) :
    removeAvailability order avail = order.foldl removeOne avail := by
  induction order generalizing avail with
  | nil => rfl
  | cons idx rest ih =>
    have hone : (if (avail idx).getD 0 ≤ 1 then Function.update avail idx none
        else Function.update avail idx (some ((avail idx).getD 0 - 1))) = removeOne avail idx := by
      rw [removeOne]
      split
      · rfl
      · rfl
    rw [removeAvailability, List.foldl_cons, ← hone]
    exact ih _

def Call.onMultiset (c : Call ι κ) (m : Multiset κ) : Multiset κ :=
  match c.kind with
  | .enters => m + c.pieces.val
  | .leaves => m - c.pieces.val

theorem apply_ofMultiset (c : Call ι κ) (m : Multiset κ) :
    c.apply (ofMultiset m) = ofMultiset (c.onMultiset m) := by
  unfold Call.apply Call.onMultiset
  cases c.kind with
  | enters => exact (updateAvailability_eq _ _).trans (foldl_insertOne _ _)
  | leaves => exact (removeAvailability_eq _ _).trans (foldl_removeOne _ _)

theorem run_ofMultiset (calls : List (Call ι κ)) (m : Multiset κ) :
    run calls (ofMultiset m) = ofMultiset (calls.foldl (fun m c => c.onMultiset m) m) := by
  induction calls generalizing m with
  | nil => rfl
  | cons c rest ih => rw [run, apply_ofMultiset, ih, List.foldl_cons]

theorem noCounts_eq : (noCounts : Counts κ) = ofMultiset 0 := ofMultiset_zero.symm

theorem positive_apply (c : Call ι κ) {avail : Counts κ} (h : Positive avail) :
    Positive (c.apply avail) := by
  unfold Call.apply
  cases c.kind with
  | enters =>
    dsimp only
    rw [updateAvailability_eq]
    exact List.foldlRecOn c.order insertOne h fun _ h k _ => h.insertOne k
  | leaves =>
    dsimp only
    rw [removeAvailability_eq]
    exact List.foldlRecOn c.order removeOne h fun _ h k _ => h.removeOne k

theorem run_positive (calls : List (Call ι κ)) : Positive (run calls noCounts) := by
  rw [noCounts_eq, run_ofMultiset]
  exact positive_ofMultiset _

def history (calls : List (Call ι κ)) : List (Kind × Finset κ) :=
  calls.map fun c => (c.kind, c.pieces)

/-- Each removal is matched with an earlier update by the same set, and these sets are not removed. -/
def Matched (calls : List (Call ι κ)) (out : Multiset (Finset κ)) : Prop :=
  outstanding (history calls) 0 = some out

instance (calls : List (Call ι κ)) (out : Multiset (Finset κ)) : Decidable (Matched calls out) :=
  inferInstanceAs (Decidable (_ = _))

/-- After matched calls the map is the sum of the outstanding sets. -/
theorem run_outstanding (h : outstanding (history calls) out = some left) :
    run calls (ofMultiset (out.bind Finset.val)) = ofMultiset (left.bind Finset.val) := by
  induction calls generalizing out with
  | nil =>
    obtain rfl := Option.some.inj h
    rfl
  | cons c rest ih =>
    rw [run, apply_ofMultiset, Call.onMultiset]
    rw [history, List.map_cons] at h
    cases hkind : c.kind with
    | enters =>
      rw [hkind] at h
      have hsum : out.bind Finset.val + c.pieces.val = (c.pieces ::ₘ out).bind Finset.val := by
        rw [Multiset.cons_bind, add_comm]
      dsimp only
      rw [hsum]
      exact ih h
    | leaves =>
      rw [hkind] at h
      obtain ⟨hmem, hrest⟩ := outstanding_leaves h
      have hsum : out.bind Finset.val - c.pieces.val = (out.erase c.pieces).bind Finset.val := by
        rw [← Multiset.cons_erase hmem, Multiset.cons_bind, add_tsub_cancel_left,
          Multiset.erase_cons_head]
      dsimp only
      rw [hsum]
      exact ih hrest

theorem run_matched (h : Matched calls out) :
    run calls noCounts = ofMultiset (out.bind Finset.val) := by
  rw [noCounts_eq]
  exact run_outstanding h

theorem run_reordered (h : Matched calls out) (h' : Matched calls' left)
    (hsame : ∀ kind, allOf kind (history calls') = allOf kind (history calls)) :
    run calls' noCounts = run calls noCounts := by
  rw [run_matched h, run_matched h', outstanding_unique h h' hsame]

end

section

variable [DecidableEq ι] {calls calls' : List (Call ι κ)} {out : Multiset (Finset κ)}

def ownHistory (calls : List (Call ι κ)) : List (Kind × (ι × Finset κ)) :=
  calls.map fun c => (c.kind, (c.peer, c.pieces))

/-- Each removal is matched with an earlier update of the same peer. -/
def OwnMatched (calls : List (Call ι κ)) : Prop := (outstanding (ownHistory calls) 0).isSome

instance (calls : List (Call ι κ)) : Decidable (OwnMatched calls) :=
  inferInstanceAs (Decidable (_ = _))

theorem Interleaves.perm (h : Interleaves calls calls') : calls'.Perm calls := by
  refine List.perm_iff_count.mpr fun c => ?_
  have hsame := congrArg (List.count c) (h c.peer)
  rwa [List.count_filter (by simp), List.count_filter (by simp)] at hsame

theorem ownMatched_interleaved (hown : OwnMatched calls) (h : Interleaves calls calls') :
    OwnMatched calls' := by
  have hfilter : ∀ p, (ownHistory calls').filter (fun e => e.2.1 = p) =
      (ownHistory calls).filter fun e => e.2.1 = p := by
    intro p
    rw [ownHistory, ownHistory, List.filter_map, List.filter_map]
    exact congrArg _ (h p)
  rw [OwnMatched, outstanding_groups Prod.fst] at hown ⊢
  intro p
  rw [hfilter]
  exact hown p

theorem matched_of_own (hown : OwnMatched calls) : ∃ out, Matched calls out := by
  obtain ⟨out, hout⟩ := Option.isSome_iff_exists.mp hown
  refine ⟨out.map Prod.snd, ?_⟩
  have hmap := outstanding_map Prod.snd hout
  rw [ownHistory, List.map_map, Multiset.map_zero] at hmap
  exact hmap

theorem run_interleaved (hown : OwnMatched calls) (h : Interleaves calls calls') :
    run calls' noCounts = run calls noCounts := by
  obtain ⟨out, hout⟩ := matched_of_own hown
  obtain ⟨out', hout'⟩ := matched_of_own (ownMatched_interleaved hown h)
  exact run_reordered hout hout' (allOf_perm (h.perm.map _))

structure Kept (calls : List (Call ι κ)) (out : Multiset (Finset κ)) : Prop where
  counts : ∀ i, (run calls noCounts i).getD 0 = (out.countP fun s => i ∈ s : ℕ)
  positive : ∀ before c after, calls = before ++ c :: after →
    ∀ n, Positive (run (before ++ [c.cut n]) noCounts)
  emptied : out = 0 → run calls noCounts = noCounts
  reordered : ∀ (calls' : List (Call ι κ)) (out' : Multiset (Finset κ)), Matched calls' out' →
    (∀ kind, allOf kind (history calls') = allOf kind (history calls)) →
      run calls' noCounts = run calls noCounts
  interleaved : OwnMatched calls → ∀ calls', Interleaves calls calls' →
    OwnMatched calls' ∧ run calls' noCounts = run calls noCounts
  commute : OwnMatched calls → ∀ before c d after, calls = before ++ c :: d :: after →
    c.peer ≠ d.peer →
      OwnMatched (before ++ d :: c :: after) ∧
        run (before ++ d :: c :: after) noCounts = run calls noCounts

/-- While removals are matched, the map of counts is the multiset of the outstanding sets. -/
theorem availability_kept (h : Matched calls out) : Kept calls out := by
  have hinterleaved : OwnMatched calls → ∀ calls', Interleaves calls calls' →
      OwnMatched calls' ∧ run calls' noCounts = run calls noCounts :=
    fun hown calls' h => ⟨ownMatched_interleaved hown h, run_interleaved hown h⟩
  refine ⟨fun i => ?_, fun _ _ _ _ n => run_positive _, fun hout => ?_,
    fun calls' out' h' hsame => run_reordered h h' hsame, hinterleaved, ?_⟩
  · rw [run_matched h, getD_ofMultiset, count_bind_val]
  · rw [run_matched h, hout, Multiset.zero_bind, noCounts_eq]
  · rintro hown before c d after rfl hne
    exact hinterleaved hown _ (interleaves_swap hne)

end

def callOf (peer : ℕ) (kind : Kind) (order : List ℤ) : Call ℕ ℤ :=
  ⟨peer, kind, order.dedup, order.nodup_dedup⟩

/-- Three peers, the first of which leaves, and comes back with another set. -/
def someCalls : List (Call ℕ ℤ) :=
  [callOf 0 .enters [0, 2], callOf 1 .enters [2, 1], callOf 0 .leaves [2, 0],
    callOf 2 .enters [1, 2], callOf 0 .enters [2], callOf 1 .leaves [1, 2]]

theorem availability_kept_someCalls :
    OwnMatched someCalls ∧ Matched someCalls {{1, 2}, {2}} ∧ Kept someCalls {{1, 2}, {2}} := by
  have hmatched : Matched someCalls {{1, 2}, {2}} := by decide
  exact ⟨by decide, hmatched, availability_kept hmatched⟩

def widen (avail : ℕ → Option ℕ) : Counts ℕ := Option.map Nat.cast ∘ avail

def Call.onTracker (c : Call ι ℕ) (t : Tracker) : Tracker :=
  match c.kind with
  | .enters => t.updateAvailability c.pieces
  | .leaves => t.removeAvailability c.pieces

theorem getD_widen (avail : ℕ → Option ℕ) (i : ℕ) :
    (widen avail i).getD 0 = ((avail i).getD 0 : ℕ) := by
  rw [widen, Function.comp_apply]
  cases avail i with
  | none => rfl
  | some n => rfl

theorem widen_updateLoop (order : List ℕ) (avail : ℕ → Option ℕ) :
    widen (SelectionAgreement.updateLoop order avail) = updateAvailability order (widen avail) := by
  induction order generalizing avail with
  | nil => rfl
  | cons idx rest ih =>
    rw [SelectionAgreement.updateLoop, updateAvailability, ih, getD_widen]
    exact congrArg _ (Function.comp_update _ _ _ _)

theorem widen_removeLoop (order : List ℕ) (avail : ℕ → Option ℕ) :
    widen (SelectionAgreement.removeLoop order avail) = removeAvailability order (widen avail) := by
  induction order generalizing avail with
  | nil => rfl
  | cons idx rest ih =>
    rw [SelectionAgreement.removeLoop, removeAvailability, ih, getD_widen]
    refine congrArg _ ((Function.comp_update _ _ _ _).trans ?_)
    by_cases hone : (avail idx).getD 0 ≤ 1
    · rw [if_pos hone, if_pos (by omega)]
      rfl
    · rw [if_neg hone, if_neg (by omega), Option.map_some, Nat.cast_sub (by omega)]
      rfl

/-- The tracker of the engine makes the same of every call. -/
theorem widen_onTracker (c : Call ι ℕ) (t : Tracker) :
    widen (c.onTracker t).availability = c.apply (widen t.availability) := by
  have hset : c.pieces = c.order.toFinset := List.toFinset_eq c.nodup
  unfold Call.onTracker Call.apply
  cases c.kind with
  | enters =>
    dsimp only
    rw [hset, ← SelectionAgreement.updateLoop_eq t c.nodup, widen_updateLoop]
  | leaves =>
    dsimp only
    rw [hset, ← SelectionAgreement.removeLoop_eq t c.nodup, widen_removeLoop]

theorem widen_foldl (calls : List (Call ι ℕ)) (t : Tracker) :
    widen (calls.foldl (fun t c => c.onTracker t) t).availability =
      run calls (widen t.availability) := by
  induction calls generalizing t with
  | nil => rfl
  | cons c rest ih => rw [List.foldl_cons, ih, widen_onTracker, run]

section

variable {calls : List (Call ι ℕ)} {out : Multiset (Finset ℕ)} {t : Tracker}

/-- On a new tracker, a piece is as rare as it is among the outstanding sets. -/
theorem rarity_outstanding (h : Matched calls out) (hnew : ∀ i, t.availability i = none) (i : ℕ) :
    (calls.foldl (fun t c => c.onTracker t) t).rarity i = out.countP fun s => i ∈ s := by
  have hempty : widen t.availability = noCounts := by
    funext j
    rw [widen, Function.comp_apply, hnew]
    rfl
  have hwide := congrFun (widen_foldl calls t) i
  rw [hempty, run_matched h] at hwide
  have hcount := congrArg (fun n : Option ℤ => n.getD 0) hwide
  rw [getD_widen, getD_ofMultiset, count_bind_val] at hcount
  exact Int.ofNat.inj hcount

theorem selectPiece_rarest (h : Matched calls out) (hnew : ∀ i, t.availability i = none) {i : ℕ}
    (hselect : (calls.foldl (fun t c => c.onTracker t) t).selectPiece = some i) {j : ℕ}
    (hj : j ∈ (calls.foldl (fun t c => c.onTracker t) t).candidates) :
    (out.countP fun s => i ∈ s) ≤ out.countP fun s => j ∈ s := by
  rw [← rarity_outstanding h hnew i, ← rarity_outstanding h hnew j]
  rcases (PieceSearch.selectPiece_leastBy hselect).least j hj with hless | ⟨hsame, -⟩
  · exact hless.le
  · exact hsame.le

end

open PieceEngine EngineTurns InterleavedProcesses PeerRuns AvailabilityCounts

def announced (t : Task) : Multiset ℕ := if Live t then t.peerPieces.val else 0

section

variable {t : Tracker} {sha1 : ByteStrings.Bytes → ByteStrings.Bytes} {kind : StorageKind}
  {s₀ : Session} {c : Config Session Task}

theorem exists_call (kind : Kind) (pieces : Finset ℕ) :
    ∃ c : Call Unit ℕ, c.kind = kind ∧ c.pieces = pieces :=
  ⟨⟨(), kind, pieces.toList, pieces.nodup_toList⟩, rfl, Finset.val_inj.mp pieces.coe_toList⟩

theorem positive_update (h : Positive (widen t.availability)) (pieces : Finset ℕ) :
    Positive (widen (t.updateAvailability pieces).availability) := by
  obtain ⟨c, hkind, rfl⟩ := exists_call .enters pieces
  have hsame := widen_onTracker c t
  rw [Call.onTracker, hkind] at hsame
  exact hsame ▸ positive_apply c h

theorem positive_remove (h : Positive (widen t.availability)) (pieces : Finset ℕ) :
    Positive (widen (t.removeAvailability pieces).availability) := by
  obtain ⟨c, hkind, rfl⟩ := exists_call .leaves pieces
  have hsame := widen_onTracker c t
  rw [Call.onTracker, hkind] at hsame
  exact hsame ▸ positive_apply c h

theorem count_announced (procs : List Task) (i : ℕ) :
    ((procs : Multiset Task).bind announced).count i = procs.countP fun t => HasPiece i t := by
  induction procs with
  | nil => rfl
  | cons t rest ih =>
    rw [← Multiset.cons_coe, Multiset.cons_bind, Multiset.count_add, ih, List.countP_cons,
      Nat.add_comm, announced]
    refine congrArg _ ?_
    by_cases hlive : Live t
    · rw [if_pos hlive, Multiset.count_eq_of_nodup t.peerPieces.nodup]
      by_cases hmem : i ∈ t.peerPieces.val
      · rw [if_pos hmem, if_pos (decide_eq_true ⟨hlive, hmem⟩)]
      · rw [if_neg hmem, if_neg fun h => hmem (of_decide_eq_true h).2]
    · rw [if_neg hlive, Multiset.count_zero, if_neg fun h => hlive (of_decide_eq_true h).1]

/-- Where peers announce each piece once, the map is the multiset of what the live tasks' peers have. -/
theorem session_multiset (hidle : Idle s₀)
    (hreach : Reach (taskStep sha1 kind) (Moves Announces) ⟨s₀, []⟩ c) :
    widen c.shared.tracker.availability = ofMultiset ((c.procs : Multiset Task).bind announced) := by
  have hpositive : Positive (widen c.shared.tracker.availability) := by
    refine peers_invariant (I := fun s _ => Positive (widen s.tracker.availability)) hreach ?_ ?_ ?_
    · intro i n hi
      rw [widen, Function.comp_apply, hidle.availability] at hi
      cases hi
    · exact fun _ _ _ _ _ h => h
    · intro s procs n t a s' t' h _ hok htask hturn
      cases turn_counts hturn htask hok with
      | same hs _ => rwa [hs]
      | adds pieces hs _ _ _ _ _ =>
        rw [hs]
        exact positive_update h pieces
      | removes hs _ _ =>
        rw [hs]
        exact positive_remove h t.peerPieces
  refine eq_ofMultiset hpositive fun i => ?_
  rw [getD_widen, count_announced, ← (exact_of_reach hidle hreach).count i]
  rfl

/-- Once no peer is left, the map is empty. -/
theorem session_emptied (hidle : Idle s₀)
    (hreach : Reach (taskStep sha1 kind) (Moves Announces) ⟨s₀, []⟩ c)
    (hgone : ∀ t ∈ c.procs, ¬ Live t) (i : ℕ) : c.shared.tracker.availability i = none := by
  have hnone : ∀ t ∈ (c.procs : Multiset Task), announced t = 0 := fun t ht => if_neg (hgone t ht)
  have hnothing : (c.procs : Multiset Task).bind announced = 0 :=
    (Multiset.bind_congr hnone).trans (Multiset.bind_zero _)
  have hempty := congrFun (session_multiset hidle hreach) i
  rw [hnothing, ofMultiset_zero] at hempty
  exact Option.map_eq_none_iff.mp hempty

end

end AvailabilityLedger
