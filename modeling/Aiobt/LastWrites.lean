import Mathlib.Data.List.Basic

/-! # What is read back after several writes

Pairs of a key and a value are written in their order; a later pair with the same key overwrites. -/
namespace LastWrites

variable {κ β : Type*} [DecidableEq κ] {k : κ} {b : β} {ps qs : List (κ × β)}
  {m m' m'' : κ → Option β}

def last (k : κ) : List (κ × β) → Option β
  | [] => none
  | p :: rest => (last k rest).or (if p.1 = k then some p.2 else none)

theorem last_append : last k (ps ++ qs) = (last k qs).or (last k ps) := by
  induction ps with
  | nil => rw [List.nil_append, last, Option.or_none]
  | cons p ps ih => rw [List.cons_append, last, ih, Option.or_assoc, last]

theorem mem_of_last (h : last k ps = some b) : (k, b) ∈ ps := by
  induction ps with
  | nil => cases h
  | cons p ps ih =>
    rw [last, Option.or_eq_some_iff] at h
    rcases h with h | ⟨-, h⟩
    · exact List.mem_cons_of_mem _ (ih h)
    · split_ifs at h with hkey
      obtain rfl := Option.some.inj h
      rw [← hkey]
      exact List.mem_cons_self

theorem last_eq_none (h : last k ps = none) : ∀ p ∈ ps, p.1 ≠ k := by
  induction ps with
  | nil => exact fun p hp => absurd hp List.not_mem_nil
  | cons p ps ih =>
    rw [last, Option.or_eq_none_iff] at h
    refine List.forall_mem_cons.mpr ⟨fun hkey => ?_, ih h.1⟩
    rw [if_pos hkey] at h
    cases h.2

/-- The pairs are in the store, and what else it held is still there. It may hold more. -/
def Applied (m : κ → Option β) (ps : List (κ × β)) (m' : κ → Option β) : Prop :=
  ∀ k b, (last k ps).or (m k) = some b → m' k = some b

theorem Applied.nil (m : κ → Option β) : Applied m [] m := fun _ _ h => h

theorem Applied.append (h : Applied m ps m') (h' : Applied m' qs m'') :
    Applied m (ps ++ qs) m'' := by
  intro k b hb
  rw [last_append, Option.or_assoc] at hb
  apply h'
  rw [Option.or_eq_some_iff] at hb ⊢
  exact hb.imp_right fun hlast => ⟨hlast.1, h k b hlast.2⟩

def Functional (ps : List (κ × β)) : Prop := ∀ p ∈ ps, ∀ q ∈ ps, p.1 = q.1 → p.2 = q.2

/-- Every value that was written is there in the end exactly if no two pairs contradict. -/
theorem Applied.all_there_iff (h : Applied m ps m') :
    (∀ p ∈ ps, m' p.1 = some p.2) ↔ Functional ps := by
  constructor
  · intro hthere p hp q hq hkey
    have hsame : some p.2 = some q.2 := by rw [← hthere p hp, ← hthere q hq, hkey]
    exact Option.some.inj hsame
  · intro hfun p hp
    cases hlast : last p.1 ps with
    | none => exact absurd rfl (last_eq_none hlast p hp)
    | some b =>
      have hvalue : b = p.2 := hfun _ (mem_of_last hlast) p hp rfl
      exact h _ _ (by rw [hlast, hvalue, Option.some_or])

end LastWrites
