import Mathlib.Algebra.Order.Ring.Int
import Mathlib.Data.Finset.Defs
import Mathlib.Data.Multiset.Bind

/-! # Multisets as maps of counts

A map holds how often each key occurs, and keys that do not occur are not in it. Beside it, what is
still outstanding in a history of entries and withdrawals. -/
namespace CountMaps

variable {κ β : Type*} [DecidableEq κ]

abbrev Counts (κ : Type*) := κ → Option ℤ

def insertOne (c : Counts κ) (k : κ) : Counts κ :=
  Function.update c k (some ((c k).getD 0 + 1))

/-- The last occurrence takes the key out of the map. -/
def removeOne (c : Counts κ) (k : κ) : Counts κ :=
  Function.update c k (if (c k).getD 0 ≤ 1 then none else some ((c k).getD 0 - 1))

def ofMultiset (m : Multiset κ) : Counts κ :=
  fun k => if m.count k = 0 then none else some (m.count k)

def Positive (c : Counts κ) : Prop := ∀ k n, c k = some n → 0 < n

section

variable {m : Multiset κ} {c : Counts κ} {k : κ}

theorem getD_ofMultiset (m : Multiset κ) (k : κ) : (ofMultiset m k).getD 0 = (m.count k : ℤ) := by
  rw [ofMultiset]
  split
  · next hzero => rw [hzero, Option.getD_none, Nat.cast_zero]
  · rfl

theorem positive_ofMultiset (m : Multiset κ) : Positive (ofMultiset m) := by
  intro k n h
  rw [ofMultiset] at h
  split at h
  · cases h
  · next hpos =>
    obtain rfl := Option.some.inj h
    omega

theorem ofMultiset_zero : ofMultiset (0 : Multiset κ) = fun _ => none := by
  funext k
  rw [ofMultiset, Multiset.count_zero, if_pos rfl]

theorem eq_ofMultiset (hpositive : Positive c) (hcount : ∀ k, (c k).getD 0 = (m.count k : ℤ)) :
    c = ofMultiset m := by
  funext k
  have hk := hcount k
  rw [ofMultiset]
  cases hc : c k with
  | none =>
    rw [hc, Option.getD_none] at hk
    rw [if_pos (by omega)]
  | some n =>
    have hn := hpositive k n hc
    rw [hc, Option.getD_some] at hk
    rw [if_neg (by omega), hk]

theorem Positive.insertOne (h : Positive c) (k : κ) : Positive (insertOne c k) := by
  intro j n hj
  rw [CountMaps.insertOne] at hj
  by_cases hjk : j = k
  · subst hjk
    rw [Function.update_self] at hj
    obtain rfl := Option.some.inj hj
    cases hc : c j with
    | none => exact Int.one_pos
    | some n =>
      have hn := h j n hc
      rw [Option.getD_some]
      omega
  · rw [Function.update_of_ne hjk] at hj
    exact h j n hj

theorem Positive.removeOne (h : Positive c) (k : κ) : Positive (removeOne c k) := by
  intro j n hj
  rw [CountMaps.removeOne] at hj
  by_cases hjk : j = k
  · subst hjk
    rw [Function.update_self] at hj
    split at hj
    · cases hj
    · obtain rfl := Option.some.inj hj
      omega
  · rw [Function.update_of_ne hjk] at hj
    exact h j n hj

theorem insertOne_ofMultiset (m : Multiset κ) (k : κ) :
    insertOne (ofMultiset m) k = ofMultiset (k ::ₘ m) := by
  apply eq_ofMultiset ((positive_ofMultiset m).insertOne k)
  intro j
  rw [insertOne]
  by_cases hjk : j = k
  · subst hjk
    rw [Function.update_self, Option.getD_some, getD_ofMultiset, Multiset.count_cons_self]
    exact (Nat.cast_succ _).symm
  · rw [Function.update_of_ne hjk, getD_ofMultiset, Multiset.count_cons_of_ne hjk]

theorem removeOne_ofMultiset (m : Multiset κ) (k : κ) :
    removeOne (ofMultiset m) k = ofMultiset (m.erase k) := by
  apply eq_ofMultiset ((positive_ofMultiset m).removeOne k)
  intro j
  rw [removeOne]
  by_cases hjk : j = k
  · subst hjk
    rw [Function.update_self, getD_ofMultiset, Multiset.count_erase_self]
    split
    · rw [Option.getD_none]
      omega
    · rw [Option.getD_some]
      omega
  · rw [Function.update_of_ne hjk, getD_ofMultiset, Multiset.count_erase_of_ne hjk]

theorem foldl_insertOne (keys : List κ) (m : Multiset κ) :
    keys.foldl insertOne (ofMultiset m) = ofMultiset (m + (keys : Multiset κ)) := by
  induction keys generalizing m with
  | nil => exact congrArg ofMultiset (add_zero m).symm
  | cons k keys ih =>
    rw [List.foldl_cons, insertOne_ofMultiset, ih, ← Multiset.cons_coe, Multiset.add_cons,
      Multiset.cons_add]

theorem foldl_removeOne (keys : List κ) (m : Multiset κ) :
    keys.foldl removeOne (ofMultiset m) = ofMultiset (m - (keys : Multiset κ)) := by
  induction keys generalizing m with
  | nil => exact congrArg ofMultiset (Multiset.sub_zero m).symm
  | cons k keys ih =>
    rw [List.foldl_cons, removeOne_ofMultiset, ih, ← Multiset.cons_coe, Multiset.sub_cons]

/-- How often a key occurs in finite sets is how many of them have it. -/
theorem count_bind_val (sets : Multiset (Finset κ)) (k : κ) :
    (sets.bind Finset.val).count k = sets.countP fun s => k ∈ s := by
  induction sets using Multiset.induction with
  | empty => rfl
  | cons s sets ih =>
    rw [Multiset.cons_bind, Multiset.count_add, ih, Multiset.countP_cons, Nat.add_comm,
      Multiset.count_eq_of_nodup s.nodup]
    rfl

end

inductive Kind where
  | enters
  | leaves
  deriving DecidableEq, Repr

def allOf (kind : Kind) (h : List (Kind × β)) : Multiset β :=
  ((h.filter fun e => e.1 = kind).map Prod.snd : List β)

theorem allOf_perm {h h' : List (Kind × β)} (hperm : h'.Perm h) (kind : Kind) :
    allOf kind h' = allOf kind h :=
  Multiset.coe_eq_coe.mpr ((hperm.filter _).map _)

variable [DecidableEq β]

/-- What is left of a history; `none` where something leaves that is not there. -/
def outstanding : List (Kind × β) → Multiset β → Option (Multiset β)
  | [], out => some out
  | (.enters, b) :: rest, out => outstanding rest (b ::ₘ out)
  | (.leaves, b) :: rest, out => if b ∈ out then outstanding rest (out.erase b) else none

section

variable {h h' : List (Kind × β)} {out left left' : Multiset β}

theorem outstanding_leaves {b : β} {rest : List (Kind × β)}
    (hleft : outstanding ((.leaves, b) :: rest) out = some left) :
    b ∈ out ∧ outstanding rest (out.erase b) = some left := by
  rw [outstanding] at hleft
  split at hleft
  · next hmem => exact ⟨hmem, hleft⟩
  · cases hleft

theorem outstanding_balance (hleft : outstanding h out = some left) :
    left + allOf .leaves h = out + allOf .enters h := by
  induction h generalizing out with
  | nil =>
    obtain rfl := Option.some.inj hleft
    rfl
  | cons e rest ih =>
    obtain ⟨kind, b⟩ := e
    cases kind with
    | enters =>
      have hrest := ih hleft
      have henters : allOf .enters ((.enters, b) :: rest) = b ::ₘ allOf .enters rest := rfl
      have hleaves : allOf .leaves ((.enters, b) :: rest) = allOf .leaves rest := rfl
      rw [henters, hleaves, hrest, Multiset.cons_add, Multiset.add_cons]
    | leaves =>
      obtain ⟨hmem, hrest⟩ := outstanding_leaves hleft
      have henters : allOf .enters ((.leaves, b) :: rest) = allOf .enters rest := rfl
      have hleaves : allOf .leaves ((.leaves, b) :: rest) = b ::ₘ allOf .leaves rest := rfl
      rw [henters, hleaves, Multiset.add_cons, ih hrest, ← Multiset.cons_add, Multiset.cons_erase hmem]

/-- The order of a history does not change what is left. -/
theorem outstanding_unique (hleft : outstanding h out = some left)
    (hleft' : outstanding h' out = some left') (hsame : ∀ kind, allOf kind h' = allOf kind h) :
    left' = left := by
  have hbalance := outstanding_balance hleft
  have hbalance' := outstanding_balance hleft'
  rw [hsame, hsame, ← hbalance] at hbalance'
  exact add_right_cancel hbalance'

theorem outstanding_map {γ : Type*} [DecidableEq γ] (f : β → γ)
    (hleft : outstanding h out = some left) :
    outstanding (h.map fun e => (e.1, f e.2)) (out.map f) = some (left.map f) := by
  induction h generalizing out with
  | nil =>
    obtain rfl := Option.some.inj hleft
    rfl
  | cons e rest ih =>
    obtain ⟨kind, b⟩ := e
    cases kind with
    | enters =>
      rw [List.map_cons, outstanding, ← Multiset.map_cons]
      exact ih hleft
    | leaves =>
      obtain ⟨hmem, hrest⟩ := outstanding_leaves hleft
      rw [List.map_cons, outstanding, if_pos (Multiset.mem_map_of_mem f hmem),
        ← Multiset.map_erase_of_mem f out hmem]
      exact ih hrest

theorem filter_erase (p : β → Prop) [DecidablePred p] (s : Multiset β) (b : β) :
    (s.erase b).filter p = (s.filter p).erase b := by
  rw [← Multiset.sub_singleton, Multiset.filter_sub, Multiset.filter_singleton]
  split
  · exact Multiset.sub_singleton b _
  · next hout =>
    rw [Multiset.erase_of_notMem fun h => hout (Multiset.mem_filter.mp h).2]
    exact Multiset.sub_zero _

/-- Keys of different groups do not meet: a history is balanced where it is in each group. -/
theorem outstanding_groups {ι : Type*} [DecidableEq ι] (g : β → ι) (h : List (Kind × β))
    (out : Multiset β) : (outstanding h out).isSome ↔ ∀ p,
      (outstanding (h.filter fun e => g e.2 = p) (out.filter fun b => g b = p)).isSome := by
  induction h generalizing out with
  | nil => exact iff_of_true rfl fun _ => rfl
  | cons e rest ih =>
    obtain ⟨kind, b⟩ := e
    cases kind with
    | enters =>
      rw [outstanding, ih]
      refine forall_congr' fun p => ?_
      by_cases hp : g b = p
      · rw [List.filter_cons_of_pos (by simpa using hp), outstanding,
          Multiset.filter_cons_of_pos (p := fun b => g b = p) _ hp]
      · rw [List.filter_cons_of_neg (by simpa using hp),
          Multiset.filter_cons_of_neg (p := fun b => g b = p) _ hp]
    | leaves =>
      rw [outstanding]
      by_cases hmem : b ∈ out
      · rw [if_pos hmem, ih]
        refine forall_congr' fun p => ?_
        by_cases hp : g b = p
        · rw [List.filter_cons_of_pos (by simpa using hp), outstanding,
            if_pos (Multiset.mem_filter.mpr ⟨hmem, hp⟩), filter_erase]
        · have hout : b ∉ out.filter fun b => g b = p := fun h => hp (Multiset.mem_filter.mp h).2
          rw [List.filter_cons_of_neg (by simpa using hp), filter_erase,
            Multiset.erase_of_notMem hout]
      · rw [if_neg hmem]
        refine iff_of_false Bool.false_ne_true fun hall => ?_
        have hout : b ∉ out.filter fun c => g c = g b := fun h => hmem (Multiset.mem_filter.mp h).1
        have hgroup := hall (g b)
        rw [List.filter_cons_of_pos (by simp), outstanding, if_neg hout] at hgroup
        exact Bool.false_ne_true hgroup

end

end CountMaps
