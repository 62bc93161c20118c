import Mathlib.Data.List.Sort
import Mathlib.Data.Set.Insert

/-! # The least element by a key

The element of a set with the least key, and of those the least one: what a stable sort puts first,
and what a running minimum keeps. -/
namespace LeastByKey

variable {α β : Type} [LinearOrder α] [LinearOrder β] {key : α → β} {s s' : Set α} {a b : α}

structure LeastBy (key : α → β) (s : Set α) (a : α) : Prop where
  mem : a ∈ s
  least : ∀ b ∈ s, key a < key b ∨ key a = key b ∧ a ≤ b

theorem LeastBy.unique (ha : LeastBy key s a) (hb : LeastBy key s b) : a = b := by
  rcases ha.least b hb.mem with hlt | ⟨heq, hle⟩
  · rcases hb.least a ha.mem with hlt' | ⟨heq', -⟩
    · exact absurd hlt' (not_lt_of_gt hlt)
    · exact absurd heq'.symm (ne_of_lt hlt)
  · rcases hb.least a ha.mem with hlt' | ⟨-, hle'⟩
    · exact absurd heq.symm (ne_of_lt hlt')
    · exact le_antisymm hle hle'

theorem LeastBy.of_subset (h : LeastBy key s a) (hsub : s' ⊆ s) (ha : a ∈ s') : LeastBy key s' a :=
  ⟨ha, fun b hb => h.least b (hsub hb)⟩

theorem leastBy_singleton (key : α → β) (a : α) : LeastBy key {a} a := by
  refine ⟨rfl, fun b hb => ?_⟩
  rw [Set.mem_singleton_iff.mp hb]
  exact Or.inr ⟨rfl, le_refl a⟩

/-- A later element takes the place of the least one only if its key is less. -/
theorem LeastBy.insert (h : LeastBy key s a) (hlater : ∀ c ∈ s, c < b) :
    LeastBy key (insert b s) (if key b < key a then b else a) := by
  by_cases hlt : key b < key a
  · rw [if_pos hlt]
    refine ⟨Set.mem_insert b s, fun c hc => ?_⟩
    rcases Set.mem_insert_iff.mp hc with rfl | hc
    · exact Or.inr ⟨rfl, le_refl c⟩
    · rcases h.least c hc with hless | ⟨heq, -⟩
      · exact Or.inl (lt_trans hlt hless)
      · exact Or.inl (heq ▸ hlt)
  · rw [if_neg hlt]
    refine ⟨Set.mem_insert_of_mem b h.mem, fun c hc => ?_⟩
    rcases Set.mem_insert_iff.mp hc with rfl | hc
    · rcases lt_or_eq_of_le (le_of_not_gt hlt) with hless | heq
      · exact Or.inl hless
      · exact Or.inr ⟨heq, le_of_lt (hlater a h.mem)⟩
    · exact h.least c hc

theorem head_insertionSort_leastBy {xs : List α} [DecidableRel fun a b => key a ≤ key b]
    (hsorted : xs.Pairwise (· < ·))
    (h : (xs.insertionSort fun a b => key a ≤ key b).head? = some a) :
    LeastBy key {b | b ∈ xs} a := by
  have htotal : Std.Total fun a b : α => key a ≤ key b := ⟨fun a b => le_total _ _⟩
  have htrans : IsTrans α fun a b => key a ≤ key b := ⟨fun _ _ _ hab hbc => le_trans hab hbc⟩
  obtain ⟨rest, hrest⟩ := List.head?_eq_some_iff.mp h
  have hperm := List.perm_insertionSort (fun a b => key a ≤ key b) xs
  have hpairwise := List.pairwise_insertionSort (fun a b => key a ≤ key b) xs
  have hnodup : (a :: rest).Nodup := by
    rw [← hrest]
    exact hperm.nodup_iff.mpr (hsorted.imp fun hlt => ne_of_lt hlt)
  rw [hrest] at hperm hpairwise
  have hmem : a ∈ xs := hperm.mem_iff.mp List.mem_cons_self
  refine ⟨hmem, fun b hb => ?_⟩
  rcases List.mem_cons.mp (hperm.mem_iff.mpr hb) with rfl | hb'
  · exact Or.inr ⟨rfl, le_refl b⟩
  · have hle := (List.pairwise_cons.mp hpairwise).1 b hb'
    rcases lt_or_eq_of_le hle with hlt | heq
    · exact Or.inl hlt
    · refine Or.inr ⟨heq, ?_⟩
      by_contra hnot
      -- `b` comes before `a` in the list, and would stay there.
      have hba : [b, a].Sublist xs := by
        refine List.sublist_of_subperm_of_pairwise (r := (· < ·)) ?_ ?_ hsorted
        · refine List.subperm_of_subset ?_ ?_
          · simp [ne_of_lt (lt_of_not_ge hnot)]
          · intro c hc
            rcases List.mem_cons.mp hc with rfl | hc
            · exact hb
            · rw [List.mem_singleton.mp hc]
              exact hmem
        · exact List.pairwise_pair.mpr (lt_of_not_ge hnot)
      have hstay := List.pair_sublist_insertionSort (r := fun a b => key a ≤ key b) heq.symm.le hba
      rw [hrest] at hstay
      rcases List.cons_sublist_cons'.mp hstay with hskip | ⟨rfl, -⟩
      · exact (List.nodup_cons.mp hnodup).1 (hskip.subset (by simp))
      · exact hnot (le_refl b)

end LeastByKey
