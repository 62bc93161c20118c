import Mathlib.Algebra.Order.Monoid.Defs
import Mathlib.Algebra.BigOperators.Group.List.Basic
import Mathlib.Order.Basic

/-! # Tilings of an interval

Blocks, each with its start and its length, that fill an interval from one end to the other. -/
namespace Tilings

variable {α : Type} [AddCommMonoid α] [LinearOrder α]

/-- Each block starts where the one before it stops, and none is empty. -/
def Tiling : α → List (α × α) → α → Prop
  | start, [], stop => start = stop
  | start, block :: rest, stop => block.1 = start ∧ 0 < block.2 ∧ Tiling (start + block.2) rest stop

variable {start stop k : α} {blocks : List (α × α)} {block block' : α × α}

theorem Tiling.sum_lengths (h : Tiling start blocks stop) :
    start + (blocks.map Prod.snd).sum = stop := by
  induction blocks generalizing start with
  | nil => rw [List.map_nil, List.sum_nil, add_zero]; exact h
  | cons block rest ih =>
    rw [List.map_cons, List.sum_cons, ← add_assoc]
    exact ih h.2.2

theorem Tiling.covers (h : Tiling start blocks stop) (hstart : start ≤ k) (hstop : k < stop) :
    ∃ block ∈ blocks, block.1 ≤ k ∧ k < block.1 + block.2 := by
  induction blocks generalizing start with
  | nil => exact absurd hstop (not_lt_of_ge (le_trans (le_of_eq h.symm) hstart))
  | cons first rest ih =>
    obtain ⟨hfirst, -, hrest⟩ := h
    by_cases hk : k < start + first.2
    · exact ⟨first, List.mem_cons_self, by rw [hfirst]; exact hstart, by rw [hfirst]; exact hk⟩
    · obtain ⟨block, hmem, hin⟩ := ih hrest (le_of_not_gt hk)
      exact ⟨block, List.mem_cons_of_mem first hmem, hin⟩

variable [IsOrderedCancelAddMonoid α]

theorem Tiling.le (h : Tiling start blocks stop) : start ≤ stop := by
  induction blocks generalizing start with
  | nil => exact le_of_eq h
  | cons block rest ih => exact le_trans (le_add_of_nonneg_right (le_of_lt h.2.1)) (ih h.2.2)

theorem Tiling.inside (h : Tiling start blocks stop) (hb : block ∈ blocks) :
    start ≤ block.1 ∧ block.1 + block.2 ≤ stop ∧ 0 < block.2 := by
  induction blocks generalizing start with
  | nil => cases hb
  | cons first rest ih =>
    obtain ⟨hstart, hpos, hrest⟩ := h
    rcases List.mem_cons.mp hb with rfl | hb
    · exact ⟨le_of_eq hstart.symm, by rw [hstart]; exact hrest.le, hpos⟩
    · obtain ⟨hge, hle⟩ := ih hrest hb
      exact ⟨le_trans (le_add_of_nonneg_right (le_of_lt hpos)) hge, hle⟩

/-- The blocks come in their order, and do not overlap. -/
theorem Tiling.apart (h : Tiling start blocks stop) :
    blocks.Pairwise fun x y => x.1 + x.2 ≤ y.1 := by
  induction blocks generalizing start with
  | nil => exact List.Pairwise.nil
  | cons first rest ih =>
    obtain ⟨hstart, -, hrest⟩ := h
    refine List.Pairwise.cons (fun y hy => ?_) (ih hrest)
    rw [hstart]
    exact (hrest.inside hy).1

theorem Tiling.ascending (h : Tiling start blocks stop) :
    blocks.Pairwise fun x y => x.1 < y.1 := by
  refine h.apart.imp_of_mem fun {x y} hx _ hxy => ?_
  exact lt_of_lt_of_le (lt_add_of_pos_right x.1 (h.inside hx).2.2) hxy

theorem Tiling.full_iff {p : α × α → Bool} (h : Tiling start blocks stop) :
    stop ≤ start + ((blocks.filter p).map Prod.snd).sum ↔ ∀ block ∈ blocks, p block = true := by
  have hle : ∀ xs : List (α × α), (∀ x ∈ xs, 0 < x.2) →
      ((xs.filter p).map Prod.snd).sum ≤ (xs.map Prod.snd).sum ∧
        ((xs.map Prod.snd).sum ≤ ((xs.filter p).map Prod.snd).sum → ∀ x ∈ xs, p x = true) := by
    intro xs
    induction xs with
    | nil => exact fun _ => ⟨le_refl _, fun _ x hx => by cases hx⟩
    | cons x rest ih =>
      intro hpos
      obtain ⟨hrest, hall⟩ := ih fun y hy => hpos y (List.mem_cons_of_mem x hy)
      have hx := hpos x List.mem_cons_self
      by_cases hp : p x = true
      · rw [List.filter_cons_of_pos hp, List.map_cons, List.map_cons, List.sum_cons, List.sum_cons]
        refine ⟨add_le_add_right hrest x.2, fun hfull y hy => ?_⟩
        rcases List.mem_cons.mp hy with rfl | hy
        · exact hp
        · exact hall (le_of_add_le_add_left hfull) y hy
      · rw [List.filter_cons_of_neg hp, List.map_cons, List.sum_cons]
        have hless : ((rest.filter p).map Prod.snd).sum < x.2 + (rest.map Prod.snd).sum :=
          lt_of_le_of_lt hrest (lt_add_of_pos_left _ hx)
        exact ⟨le_of_lt hless, fun hfull => absurd hfull (not_le_of_gt hless)⟩
  constructor
  · intro hfull
    rw [← h.sum_lengths] at hfull
    exact (hle blocks fun x hx => (h.inside hx).2.2).2 (le_of_add_le_add_left hfull)
  · intro hall
    rw [List.filter_eq_self.mpr hall, h.sum_lengths]

end Tilings
