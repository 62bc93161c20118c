import Mathlib.Algebra.GroupWithZero.Nat
import Mathlib.Data.List.Basic
import Mathlib.Data.List.Count

/-! # Processes that share a state

Any number of processes take steps one at a time. A step of one process changes the shared state
and its own local state. New processes may be started at any time. -/
namespace InterleavedProcesses

variable {σ τ α : Type}

/-- What a process can do: `none` where the action is not possible. -/
abbrev Program (σ τ α : Type) := α → σ → τ → Option (σ × τ)

structure Config (σ τ : Type) where
  shared : σ
  procs : List τ

inductive Move (τ α : Type) where
  | spawn (p : τ)
  | act (i : ℕ) (a : α)

def apply (S : Program σ τ α) (c : Config σ τ) : Move τ α → Option (Config σ τ)
  | .spawn p => some { c with procs := c.procs ++ [p] }
  | .act i a =>
    match c.procs[i]? with
    | none => none
    | some p =>
      match S a c.shared p with
      | none => none
      | some (s, p') => some ⟨s, c.procs.set i p'⟩

/-- The configurations that moves lead to, where each move is allowed by `ok`. -/
inductive Reach (S : Program σ τ α) (ok : Config σ τ → Move τ α → Prop) (start : Config σ τ) :
    Config σ τ → Prop
  | refl : Reach S ok start start
  | next {c c'} (m : Move τ α) : Reach S ok start c → ok c m → apply S c m = some c' →
      Reach S ok start c'

variable {S : Program σ τ α} {ok : Config σ τ → Move τ α → Prop} {start c c' : Config σ τ}

theorem apply_act {i : ℕ} {a : α} (h : apply S c (.act i a) = some c') :
    ∃ p s p', c.procs[i]? = some p ∧ S a c.shared p = some (s, p') ∧
      c' = ⟨s, c.procs.set i p'⟩ := by
  cases hp : c.procs[i]? with
  | none => simp [apply, hp] at h
  | some p =>
    cases hs : S a c.shared p with
    | none => simp [apply, hp, hs] at h
    | some next =>
      simp only [apply, hp, hs, Option.some.injEq] at h
      exact ⟨p, next.1, next.2, rfl, hs, h.symm⟩

theorem apply_spawn {p : τ} (h : apply S c (.spawn p) = some c') :
    c' = { c with procs := c.procs ++ [p] } := (Option.some.inj h).symm

theorem Reach.mono {ok' : Config σ τ → Move τ α → Prop} (h : Reach S ok start c)
    (hok : ∀ c m, ok c m → ok' c m) : Reach S ok' start c := by
  induction h with
  | refl => exact .refl
  | next m _ hm happ ih => exact .next m ih (hok _ m hm) happ

/-- What holds at the start and is kept by every allowed move holds everywhere. -/
theorem Reach.invariant {I : Config σ τ → Prop} (h : Reach S ok start c) (hstart : I start)
    (hspawn : ∀ c p, I c → ok c (.spawn p) → I { c with procs := c.procs ++ [p] })
    (hact : ∀ c i a p s p', I c → ok c (.act i a) → c.procs[i]? = some p →
      S a c.shared p = some (s, p') → I ⟨s, c.procs.set i p'⟩) : I c := by
  induction h with
  | refl => exact hstart
  | @next c c' m _ hok happ ih =>
    cases m with
    | spawn p =>
      rw [apply_spawn happ]
      exact hspawn c p ih hok
    | act i a =>
      obtain ⟨p, s, p', hp, hs, rfl⟩ := apply_act happ
      exact hact c i a p s p' ih hok hp hs

theorem mem_set_cases {l : List τ} {i : ℕ} {p q : τ} (h : q ∈ l.set i p) : q = p ∨ q ∈ l := by
  rcases List.mem_or_eq_of_mem_set h with h | h
  · exact Or.inr h
  · exact Or.inl h

theorem forall_mem_set {P : τ → Prop} {l : List τ} {i : ℕ} {p : τ} (h : ∀ q ∈ l, P q) (hp : P p) :
    ∀ q ∈ l.set i p, P q := by
  intro q hq
  rcases mem_set_cases hq with rfl | hq
  · exact hp
  · exact h q hq

theorem forall_mem_concat {P : τ → Prop} {l : List τ} {p : τ} (h : ∀ q ∈ l, P q) (hp : P p) :
    ∀ q ∈ l ++ [p], P q :=
  List.forall_mem_append.mpr ⟨h, List.forall_mem_singleton.mpr hp⟩

theorem getElem?_set_cases {l : List τ} {i j : ℕ} {p' q : τ} (h : (l.set i p')[j]? = some q) :
    (j = i ∧ q = p') ∨ (j ≠ i ∧ l[j]? = some q) := by
  by_cases hij : i = j
  · subst hij
    rw [List.getElem?_set_self'] at h
    obtain ⟨_, -, rfl⟩ := Option.map_eq_some_iff.mp h
    exact Or.inl ⟨rfl, rfl⟩
  · rw [List.getElem?_set_ne hij] at h
    exact Or.inr ⟨fun h => hij h.symm, h⟩

theorem getElem?_append_cases {l : List τ} {i : ℕ} {p q : τ} (h : (l ++ [p])[i]? = some q) :
    (i = l.length ∧ q = p) ∨ l[i]? = some q := by
  by_cases hi : i < l.length
  · rw [List.getElem?_append_left hi] at h
    exact Or.inr h
  · obtain ⟨hlt, -⟩ := List.getElem?_eq_some_iff.mp h
    rw [List.length_append, List.length_singleton] at hlt
    obtain rfl : i = l.length := by omega
    rw [List.getElem?_concat_length] at h
    exact Or.inl ⟨rfl, (Option.some.inj h).symm⟩

/-- Each step keeps `G` of the shared state and `L` of the process that takes it, and changes the
shared state by `R` only; `L` is stable under such changes. -/
theorem Reach.rely_guarantee {G : σ → Prop} {L : σ → τ → Prop} {R : σ → σ → Prop}
    (h : Reach S ok start c) (hshared : G start.shared) (hprocs : ∀ p ∈ start.procs, L start.shared p)
    (hspawn : ∀ c p, G c.shared → ok c (.spawn p) → L c.shared p)
    (hact : ∀ c i a p s p', ok c (.act i a) → c.procs[i]? = some p → G c.shared → L c.shared p →
      S a c.shared p = some (s, p') → G s ∧ L s p' ∧ R c.shared s)
    (hstable : ∀ s s' q, G s → R s s' → L s q → L s' q) :
    G c.shared ∧ ∀ p ∈ c.procs, L c.shared p := by
  refine h.invariant (I := fun c => G c.shared ∧ ∀ p ∈ c.procs, L c.shared p) ⟨hshared, hprocs⟩ ?_ ?_
  · rintro c p ⟨hG, hL⟩ hok
    exact ⟨hG, forall_mem_concat hL (hspawn c p hG hok)⟩
  · rintro c i a p s p' ⟨hG, hL⟩ hok hp hs
    obtain ⟨hG', hL', hR⟩ := hact c i a p s p' hok hp hG (hL p (List.mem_of_getElem? hp)) hs
    exact ⟨hG', forall_mem_set (fun q hq => hstable _ _ q hG hR (hL q hq)) hL'⟩

def Exclusive (inside : τ → Bool) (c : Config σ τ) : Prop :=
  ∀ (i j : ℕ) (p q : τ), c.procs[i]? = some p → c.procs[j]? = some q → inside p = true →
    inside q = true → i = j

theorem Exclusive.others {inside : τ → Bool} {i : ℕ} {p : τ} (h : Exclusive inside c)
    (hp : c.procs[i]? = some p) (hin : inside p = true) :
    ∀ j q, j ≠ i → c.procs[j]? = some q → inside q = false := by
  intro j q hji hj
  apply Bool.eq_false_iff.mpr
  intro hother
  exact hji (h j i q p hj hp hother hin)

theorem Reach.exclusive {inside : τ → Bool} (h : Reach S ok start c)
    (hstart : ∀ p ∈ start.procs, inside p = false)
    (hspawn : ∀ c p, ok c (.spawn p) → inside p = false)
    (hact : ∀ c i a p s p', ok c (.act i a) → c.procs[i]? = some p →
      S a c.shared p = some (s, p') → inside p' = true →
      inside p = true ∨ ∀ q ∈ c.procs, inside q = false) : Exclusive inside c := by
  refine h.invariant (I := Exclusive inside) ?_ ?_ ?_
  · intro i j p q hp _ hin _
    rw [hstart p (List.mem_of_getElem? hp)] at hin
    cases hin
  · intro c p ih hok i j q r hq hr hqin hrin
    rcases getElem?_append_cases hq with ⟨-, rfl⟩ | hq
    · rw [hspawn c q hok] at hqin
      cases hqin
    · rcases getElem?_append_cases hr with ⟨-, rfl⟩ | hr
      · rw [hspawn c r hok] at hrin
        cases hrin
      · exact ih i j q r hq hr hqin hrin
  · intro c i a p s p' ih hok hp hs
    have hother : ∀ (j : ℕ) (q : τ), j ≠ i → c.procs[j]? = some q → inside q = true →
        inside p' = true → False := by
      intro j q hji hq hqin hin
      rcases hact c i a p s p' hok hp hs hin with hin | hnone
      · exact hji (ih j i q p hq hp hqin hin)
      · rw [hnone q (List.mem_of_getElem? hq)] at hqin
        cases hqin
    intro j k q r hq hr hqin hrin
    rcases getElem?_set_cases hq with ⟨rfl, rfl⟩ | ⟨hji, hq'⟩
    · rcases getElem?_set_cases hr with ⟨rfl, -⟩ | ⟨hki, hr'⟩
      · rfl
      · exact (hother k r hki hr' hrin hqin).elim
    · rcases getElem?_set_cases hr with ⟨rfl, rfl⟩ | ⟨hki, hr'⟩
      · exact (hother j q hji hq' hqin hrin).elim
      · exact ih j k q r hq' hr' hqin hrin

theorem countP_set_add {P : τ → Bool} {l : List τ} {i : ℕ} {p : τ} (p' : τ) (h : l[i]? = some p) :
    (l.set i p').countP P + (if P p then 1 else 0) = l.countP P + (if P p' then 1 else 0) := by
  induction l generalizing i with
  | nil => simp at h
  | cons a l ih =>
    cases i with
    | zero =>
      obtain rfl : a = p := by simpa using h
      rw [List.set_cons_zero, List.countP_cons, List.countP_cons]
      omega
    | succ i =>
      have hrec := ih (show l[i]? = some p by simpa using h)
      rw [List.set_cons_succ, List.countP_cons, List.countP_cons]
      omega

theorem sum_map_set_add {f : τ → ℕ} {l : List τ} {i : ℕ} {p : τ} (p' : τ) (h : l[i]? = some p) :
    ((l.set i p').map f).sum + f p = (l.map f).sum + f p' := by
  induction l generalizing i with
  | nil => simp at h
  | cons a l ih =>
    cases i with
    | zero =>
      obtain rfl : a = p := by simpa using h
      rw [List.set_cons_zero, List.map_cons, List.map_cons, List.sum_cons, List.sum_cons]
      omega
    | succ i =>
      have hrec := ih (show l[i]? = some p by simpa using h)
      rw [List.set_cons_succ, List.map_cons, List.map_cons, List.sum_cons, List.sum_cons]
      omega

def run (S : Program σ τ α) : Config σ τ → List (Move τ α) → Option (Config σ τ)
  | c, [] => some c
  | c, m :: rest =>
    match apply S c m with
    | none => none
    | some c' => run S c' rest

def Allowed (S : Program σ τ α) (ok : Config σ τ → Move τ α → Prop) :
    Config σ τ → List (Move τ α) → Prop
  | _, [] => True
  | c, m :: rest => ok c m ∧ ∀ c', apply S c m = some c' → Allowed S ok c' rest

theorem run_cons {m : Move τ α} {rest : List (Move τ α)} {c₁ : Config σ τ}
    (h : run S c (m :: rest) = some c₁) : ∃ c', apply S c m = some c' ∧ run S c' rest = some c₁ := by
  unfold run at h
  split at h
  · cases h
  · next c' happ => exact ⟨c', happ, h⟩

theorem allowed_cons {m : Move τ α} {rest : List (Move τ α)} (happ : apply S c m = some c') :
    Allowed S ok c (m :: rest) ↔ ok c m ∧ Allowed S ok c' rest := by
  rw [Allowed]
  refine and_congr_right fun _ => ⟨fun h => h c' happ, fun h c₁ hc₁ => ?_⟩
  obtain rfl := Option.some.inj (happ.symm.trans hc₁)
  exact h

instance decidableAllowed [∀ c m, Decidable (ok c m)] :
    (moves : List (Move τ α)) → (c : Config σ τ) → Decidable (Allowed S ok c moves)
  | [], _ => .isTrue trivial
  | m :: rest, c =>
    match happ : apply S c m with
    | none => decidable_of_iff (ok c m) (by simp [Allowed, happ])
    | some c' =>
      have := decidableAllowed rest c'
      decidable_of_iff (ok c m ∧ Allowed S ok c' rest) (by simp [Allowed, happ])

theorem allowed_of_forall {moves : List (Move τ α)} (h : ∀ m ∈ moves, ∀ c, ok c m) :
    Allowed S ok c moves := by
  induction moves generalizing c with
  | nil => trivial
  | cons m rest ih =>
    refine ⟨h m List.mem_cons_self c, fun c' _ => ih fun m' hm => h m' ?_⟩
    exact List.mem_cons_of_mem m hm

theorem Reach.append_run (h : Reach S ok start c) {moves : List (Move τ α)}
    (hok : Allowed S ok c moves) (hrun : run S c moves = some c') : Reach S ok start c' := by
  induction moves generalizing c with
  | nil =>
    obtain rfl := Option.some.inj hrun
    exact h
  | cons m rest ih =>
    unfold run at hrun
    split at hrun
    · cases hrun
    · next c₁ happ => exact ih (.next m h hok.1 happ) (hok.2 c₁ happ) hrun

def Throughout (S : Program σ τ α) (P : Config σ τ → Prop) : Config σ τ → List (Move τ α) → Prop
  | c, [] => P c
  | c, m :: rest => P c ∧ ∀ c', apply S c m = some c' → Throughout S P c' rest

theorem Throughout.head {P : Config σ τ → Prop} {moves : List (Move τ α)}
    (h : Throughout S P c moves) : P c := by
  cases moves with
  | nil => exact h
  | cons m rest => exact h.1

theorem Throughout.last {P : Config σ τ → Prop} {moves : List (Move τ α)}
    (h : Throughout S P c moves) (hrun : run S c moves = some c') : P c' := by
  induction moves generalizing c with
  | nil =>
    obtain rfl := Option.some.inj hrun
    exact h
  | cons m rest ih =>
    unfold run at hrun
    split at hrun
    · cases hrun
    · next c₁ happ => exact ih (h.2 c₁ happ) hrun

theorem throughout_of_allowed {P : Config σ τ → Prop} {moves : List (Move τ α)}
    (hkeeps : ∀ c, Reach S ok start c → P c) (h : Reach S ok start c)
    (hok : Allowed S ok c moves) : Throughout S P c moves := by
  induction moves generalizing c with
  | nil => exact hkeeps c h
  | cons m rest ih =>
    exact ⟨hkeeps c h, fun c₁ happ => ih (.next m h hok.1 happ) (hok.2 c₁ happ)⟩

/-- Where `P` holds while all moves are allowed, and a move that is not allowed ends it, `P` holds
in a whole run if and only if the moves are allowed. -/
theorem throughout_iff_allowed {P : Config σ τ → Prop} {moves : List (Move τ α)}
    (hkeeps : ∀ c, Reach S ok start c → P c)
    (hneeds : ∀ c m c', m ∈ moves → P c → apply S c m = some c' → P c' → ok c m)
    (h : Reach S ok start c) (hrun : run S c moves = some c') :
    Throughout S P c moves ↔ Allowed S ok c moves := by
  refine ⟨fun hP => ?_, throughout_of_allowed hkeeps h⟩
  clear h
  induction moves generalizing c with
  | nil => trivial
  | cons m rest ih =>
    have hneeds' : ∀ c m c', m ∈ rest → P c → apply S c m = some c' → P c' → ok c m :=
      fun c m c' hm => hneeds c m c' (List.mem_cons_of_mem _ hm)
    unfold run at hrun
    split at hrun
    · cases hrun
    · next c₁ happ =>
      obtain ⟨hP, hrest⟩ := hP
      refine ⟨hneeds c m c₁ List.mem_cons_self hP happ (hrest c₁ happ).head, fun c₂ happ₂ => ?_⟩
      obtain rfl := Option.some.inj (happ.symm.trans happ₂)
      exact ih hneeds' hrun (hrest c₁ happ)

theorem reach_run {moves : List (Move τ α)} (hok : Allowed S ok start moves)
    (hrun : run S start moves = some c') : Reach S ok start c' :=
  Reach.append_run .refl hok hrun

def Forever (S : Program σ τ α) (ok : Config σ τ → Move τ α → Prop) (c : ℕ → Config σ τ)
    (m : ℕ → Move τ α) : Prop :=
  ∀ n, ok (c n) (m n) ∧ apply S (c n) (m n) = some (c (n + 1))

theorem Forever.reach {c : ℕ → Config σ τ} {m : ℕ → Move τ α} (h : Forever S ok c m) (n : ℕ) :
    Reach S ok (c 0) (c n) := by
  induction n with
  | zero => exact .refl
  | succ n ih => exact .next (m n) ih (h n).1 (h n).2

/-- Moves that bring a rank down, which no other move changes, are made only finitely often. -/
theorem settles {ρ : Type} {r : ρ → ρ → Prop} (hr : WellFounded r) (rank : ℕ → ρ) {own : ℕ → Prop}
    (hown : ∀ n, own n → r (rank (n + 1)) (rank n))
    (hother : ∀ n, ¬ own n → rank (n + 1) = rank n) : ∃ N, ∀ n, N ≤ n → ¬ own n := by
  suffices hall : ∀ b k, rank k = b → ∃ N, ∀ n, N ≤ n → ¬ own n from hall (rank 0) 0 rfl
  intro b
  induction b using hr.induction with
  | _ b ih =>
    -- the rank is `b` until the first own move
    have hnext : ∀ d k, rank k = b → own (k + d) → ∃ N, ∀ n, N ≤ n → ¬ own n := by
      intro d
      induction d with
      | zero =>
        intro k hk hn
        exact ih _ (hk ▸ hown k hn) (k + 1) rfl
      | succ d ihd =>
        intro k hk hn
        by_cases hfirst : own k
        · exact ih _ (hk ▸ hown k hfirst) (k + 1) rfl
        · apply ihd (k + 1) ((hother k hfirst).trans hk)
          rwa [Nat.add_right_comm]
    intro k hk
    by_cases hmore : ∃ d, own (k + d)
    · obtain ⟨d, hd⟩ := hmore
      exact hnext d k hk hd
    · refine ⟨k, fun n hkn hn => hmore ⟨n - k, ?_⟩⟩
      rwa [Nat.add_sub_cancel' hkn]

end InterleavedProcesses
