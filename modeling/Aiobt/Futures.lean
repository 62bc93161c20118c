import Mathlib.Data.List.Nodup

/-! # Futures that are settled once

A store of futures. Each is created for something, its key, and gets one result. -/
namespace Futures

variable {κ ρ : Type}

structure Store (κ ρ : Type) where
  cells : List (κ × Option ρ)
  settled : List ℕ
  invalid : Bool

namespace Store

variable (s : Store κ ρ) (f : ℕ)

def empty : Store κ ρ := ⟨[], [], false⟩

def keyOf : Option κ := s.cells[f]?.map Prod.fst

def resultOf : Option ρ := s.cells[f]?.bind Prod.snd

def create (k : κ) : Store κ ρ × ℕ := ({ s with cells := s.cells ++ [(k, none)] }, s.cells.length)

def settle (r : ρ) : Store κ ρ :=
  match s.cells[f]? with
  | none => s
  | some (k, none) => { s with cells := s.cells.set f (k, some r), settled := s.settled ++ [f] }
  | some (_, some _) => { s with invalid := true }

def settlePending (r : ρ) : Store κ ρ := if (s.resultOf f).isSome then s else s.settle f r

end Store

variable {P Q : κ → ρ → Prop} {s s' s'' : Store κ ρ} {f g : ℕ} {k : κ} {r : ρ}

def Store.withResult (s : Store κ ρ) (f : ℕ) (k : κ) (r : ρ) : Store κ ρ :=
  { s with cells := s.cells.set f (k, some r), settled := s.settled ++ [f] }

/-- Nothing changes, or a pending future gets the result. -/
theorem settlePending_cases (s : Store κ ρ) (f : ℕ) (r : ρ) :
    s.settlePending f r = s ∨ ∃ k, s.keyOf f = some k ∧ s.resultOf f = none ∧
      s.settlePending f r = s.withResult f k r := by
  unfold Store.settlePending Store.settle Store.keyOf Store.resultOf Store.withResult
  cases s.cells[f]? with
  | none => exact Or.inl rfl
  | some cell =>
    obtain ⟨k, result⟩ := cell
    cases result with
    | some old => exact Or.inl rfl
    | none => exact Or.inr ⟨k, rfl, rfl, rfl⟩

theorem keyOf_withResult (hkey : s.keyOf f = some k) :
    (s.withResult f k r).keyOf g = s.keyOf g := by
  by_cases hsame : f = g
  · subst hsame
    have hlt : f < s.cells.length := by
      obtain ⟨cell, hcell, -⟩ := Option.map_eq_some_iff.mp hkey
      exact (List.getElem?_eq_some_iff.mp hcell).1
    rw [hkey, Store.keyOf, Store.withResult, List.getElem?_set_self hlt]
    rfl
  · rw [Store.keyOf, Store.keyOf, Store.withResult, List.getElem?_set_ne hsame]

theorem resultOf_withResult_self (hkey : s.keyOf f = some k) :
    (s.withResult f k r).resultOf f = some r := by
  obtain ⟨cell, hcell, -⟩ := Option.map_eq_some_iff.mp hkey
  have hlt := (List.getElem?_eq_some_iff.mp hcell).1
  rw [Store.resultOf, Store.withResult, List.getElem?_set_self hlt]
  rfl

theorem resultOf_withResult_of_ne (h : f ≠ g) :
    (s.withResult f k r).resultOf g = s.resultOf g := by
  rw [Store.resultOf, Store.resultOf, Store.withResult, List.getElem?_set_ne h]

theorem keyOf_create : (s.create k).1.keyOf (s.create k).2 = some k := by
  rw [Store.create, Store.keyOf, List.getElem?_concat_length]
  rfl

theorem resultOf_create : (s.create k).1.resultOf g = s.resultOf g := by
  rw [Store.resultOf, Store.resultOf, Store.create, List.getElem?_append]
  split_ifs with hlt
  · rfl
  · rw [List.getElem?_eq_none (by omega : s.cells.length ≤ g)]
    cases g - s.cells.length with
    | zero => rfl
    | succ n => rfl

theorem keyOf_create_cases {l : κ} (h : (s.create k).1.keyOf g = some l) :
    s.keyOf g = some l ∨ (g = s.cells.length ∧ l = k) := by
  rw [Store.keyOf, Store.create, List.getElem?_append] at h
  split_ifs at h with hlt
  · exact Or.inl h
  · obtain ⟨cell, hcell, rfl⟩ := Option.map_eq_some_iff.mp h
    rw [List.getElem?_singleton] at hcell
    split_ifs at hcell with hzero
    obtain rfl := Option.some.inj hcell
    exact Or.inr ⟨by omega, rfl⟩

structure Grows (s s' : Store κ ρ) : Prop where
  keys : ∀ f k, s.keyOf f = some k → s'.keyOf f = some k
  results : ∀ f r, s.resultOf f = some r → s'.resultOf f = some r

theorem Grows.refl (s : Store κ ρ) : Grows s s := ⟨fun _ _ h => h, fun _ _ h => h⟩

theorem Grows.trans (h : Grows s s') (h' : Grows s' s'') : Grows s s'' :=
  ⟨fun f k hf => h'.keys f k (h.keys f k hf), fun f r hf => h'.results f r (h.results f r hf)⟩

theorem grows_create (s : Store κ ρ) (k : κ) : Grows s (s.create k).1 := by
  refine ⟨fun g l h => ?_, fun g r h => resultOf_create.trans h⟩
  obtain ⟨cell, hcell, hkey⟩ := Option.map_eq_some_iff.mp h
  have hlt := (List.getElem?_eq_some_iff.mp hcell).1
  rw [Store.keyOf, Store.create, List.getElem?_append_left hlt, hcell, Option.map_some, hkey]

theorem grows_settlePending (s : Store κ ρ) (f : ℕ) (r : ρ) : Grows s (s.settlePending f r) := by
  rcases settlePending_cases s f r with hsame | ⟨k, hkey, hpending, hset⟩
  · rw [hsame]
    exact Grows.refl s
  · rw [hset]
    refine ⟨fun g l h => (keyOf_withResult hkey).trans h, fun g r' h => ?_⟩
    by_cases hfg : f = g
    · subst hfg
      cases hpending.symm.trans h
    · exact (resultOf_withResult_of_ne hfg).trans h

/-- No future was settled twice, and every result suits what its future is for. -/
structure Sound (P : κ → ρ → Prop) (s : Store κ ρ) : Prop where
  once : s.settled.Nodup
  valid : s.invalid = false
  settled : ∀ f ∈ s.settled, (s.resultOf f).isSome
  suits : ∀ f k r, s.keyOf f = some k → s.resultOf f = some r → P k r

theorem sound_empty (P : κ → ρ → Prop) : Sound P Store.empty where
  once := List.nodup_nil
  valid := rfl
  settled := fun _ h => absurd h List.not_mem_nil
  suits := fun _ _ _ h => by cases h

theorem Sound.mono (h : Sound P s) (hPQ : ∀ k r, P k r → Q k r) : Sound Q s :=
  ⟨h.once, h.valid, h.settled, fun f k r hk hr => hPQ k r (h.suits f k r hk hr)⟩

theorem Sound.create (h : Sound P s) (k : κ) : Sound P (s.create k).1 where
  once := h.once
  valid := h.valid
  settled f hf := by
    rw [resultOf_create]
    exact h.settled f hf
  suits f l r hkey hresult := by
    rw [resultOf_create] at hresult
    rcases keyOf_create_cases hkey with hkey | ⟨rfl, -⟩
    · exact h.suits f l r hkey hresult
    · rw [Store.resultOf, List.getElem?_eq_none (Nat.le_refl _)] at hresult
      cases hresult

theorem Sound.settlePending (h : Sound P s) (hr : ∀ k, s.keyOf f = some k → P k r) :
    Sound P (s.settlePending f r) := by
  rcases settlePending_cases s f r with hsame | ⟨k, hkey, hpending, hset⟩
  · rw [hsame]
    exact h
  · have hnew : f ∉ s.settled := by
      intro hmem
      have := h.settled f hmem
      rw [hpending] at this
      cases this
    rw [hset]
    refine ⟨?_, h.valid, fun g hg => ?_, fun g l r' hl hr' => ?_⟩
    · exact List.nodup_append.mpr ⟨h.once, List.nodup_singleton f, fun a ha b hb => by
        rw [List.mem_singleton.mp hb]
        exact fun hab => hnew (hab ▸ ha)⟩
    · by_cases hfg : f = g
      · subst hfg
        rw [resultOf_withResult_self hkey]
        rfl
      · rw [resultOf_withResult_of_ne hfg]
        rcases List.mem_append.mp hg with hg | hg
        · exact h.settled g hg
        · exact absurd (List.mem_singleton.mp hg).symm hfg
    · rw [keyOf_withResult hkey] at hl
      by_cases hfg : f = g
      · subst hfg
        rw [resultOf_withResult_self hkey] at hr'
        obtain rfl := Option.some.inj hr'
        exact hr l hl
      · rw [resultOf_withResult_of_ne hfg] at hr'
        exact h.suits g l r' hl hr'

end Futures
