import Mathlib.Data.List.ReduceOption
import Mathlib.Data.List.Nodup

/-! # Dictionaries that change while they are iterated

A dictionary keeps its entries in a table, in the order of insertion. A deleted entry leaves a hole,
and an insertion may first close the holes. An iterator holds its position in the table, the size
that the dictionary had, and how many entries it still expects. -/
namespace LiveDict

variable {κ ν : Type}

structure Dict (κ ν : Type) where
  slots : List (Option (κ × ν))
  unique : (slots.reduceOption.map Prod.fst).Nodup

structure Iter where
  position : ℕ
  used : ℕ
  left : ℕ
  deriving DecidableEq, Repr

inductive Next (κ ν : Type) where
  /-- `RuntimeError`: the size has changed, or there is an entry that was not expected. -/
  | raises
  | stops
  | yields (key : κ) (value : ν) (it : Iter)

section

variable {α : Type}

theorem reduceOption_map_filter (p : α → Bool) (l : List (Option α)) :
    (l.map (Option.filter p)).reduceOption = l.reduceOption.filter p := by
  induction l with
  | nil => rfl
  | cons slot rest ih =>
    cases slot with
    | none => exact ih
    | some a =>
      rw [List.map_cons, Option.filter_some, List.reduceOption_cons_of_some, List.filter_cons]
      by_cases ha : p a = true
      · rw [if_pos ha, if_pos ha, List.reduceOption_cons_of_some, ih]
      · rw [if_neg ha, if_neg ha, List.reduceOption_cons_of_none, ih]

theorem reduceOption_map_some (l : List α) : (l.map some).reduceOption = l := by
  induction l with
  | nil => rfl
  | cons a rest ih => rw [List.map_cons, List.reduceOption_cons_of_some, ih]

end

def firstEntry : List (Option (κ × ν)) → ℕ → Option (ℕ × κ × ν)
  | [], _ => none
  | none :: rest, position => firstEntry rest (position + 1)
  | some (key, value) :: _, position => some (position + 1, key, value)

namespace Dict

def entries (d : Dict κ ν) : List (κ × ν) := d.slots.reduceOption

def keys (d : Dict κ ν) : List κ := d.entries.map Prod.fst

def size (d : Dict κ ν) : ℕ := d.entries.length

def ahead (d : Dict κ ν) (position : ℕ) : List (κ × ν) := (d.slots.drop position).reduceOption

def behind (d : Dict κ ν) (position : ℕ) : List (κ × ν) := (d.slots.take position).reduceOption

def iter (d : Dict κ ν) : Iter := ⟨0, d.size, d.size⟩

def next (d : Dict κ ν) (it : Iter) : Next κ ν :=
  if d.size ≠ it.used then .raises
  else
    match firstEntry (d.slots.drop it.position) it.position with
    | none => .stops
    | some (position, key, value) =>
      if it.left = 0 then .raises else .yields key value ⟨position, it.used, it.left - 1⟩

def seekLoop (p : κ → ν → Bool) (d : Dict κ ν) : ℕ → Iter → Next κ ν
  | 0, it => d.next it
  | n + 1, it =>
    match d.next it with
    | .yields key value it' => if p key value then .yields key value it' else seekLoop p d n it'
    | .stops => .stops
    | .raises => .raises

/-- A loop whose body passes over the entries that do not satisfy `p`. -/
def seek (p : κ → ν → Bool) (d : Dict κ ν) (it : Iter) : Next κ ν := d.seekLoop p it.left it

def mapValues (f : κ → ν → ν) (d : Dict κ ν) : Dict κ ν where
  slots := d.slots.map (Option.map fun e => (e.1, f e.1 e.2))
  unique := by
    have hkeys : (d.slots.map (Option.map fun e => (e.1, f e.1 e.2))).reduceOption.map Prod.fst =
        d.slots.reduceOption.map Prod.fst := by
      rw [List.reduceOption_map, List.map_map]
      rfl
    rw [hkeys]
    exact d.unique

variable [DecidableEq κ]

def modify (key : κ) (f : ν → ν) (d : Dict κ ν) : Dict κ ν :=
  d.mapValues fun k v => if k = key then f v else v

def pop (key : κ) (d : Dict κ ν) : Dict κ ν where
  slots := d.slots.map (Option.filter fun e => e.1 ≠ key)
  unique := by
    rw [reduceOption_map_filter]
    exact d.unique.sublist (List.filter_sublist.map Prod.fst)

/-- `d[key] = value`; with `compacts` the holes are closed before a new entry is added. -/
def set (compacts : Bool) (key : κ) (value : ν) (d : Dict κ ν) : Dict κ ν :=
  if h : key ∈ d.keys then d.modify key fun _ => value
  else {
    slots := (if compacts then d.entries.map some else d.slots) ++ [some (key, value)]
    unique := by
      have hentries : (if compacts then d.entries.map some else d.slots).reduceOption = d.entries := by
        cases compacts with
        | true => exact reduceOption_map_some d.entries
        | false => rfl
      rw [List.reduceOption_append, hentries, List.map_append, List.nodup_append]
      refine ⟨d.unique, List.nodup_singleton _, ?_⟩
      intro a ha b hb hab
      obtain rfl := List.mem_singleton.mp hb
      exact h (hab ▸ ha) }

/-- The dictionary has the size that the iterator knows, and no more entries ahead of the iterator
than it expects. -/
def Undisturbed (d : Dict κ ν) (it : Iter) : Prop :=
  d.size = it.used ∧ (d.ahead it.position).length ≤ it.left

omit [DecidableEq κ] in
instance (d : Dict κ ν) (it : Iter) : Decidable (d.Undisturbed it) :=
  inferInstanceAs (Decidable (_ ∧ _))

end Dict

theorem firstEntry_none {slots : List (Option (κ × ν))} {position : ℕ}
    (h : firstEntry slots position = none) : slots.reduceOption = [] := by
  induction slots generalizing position with
  | nil => rfl
  | cons slot rest ih =>
    cases slot with
    | none => exact ih h
    | some e => cases h

theorem firstEntry_some {slots : List (Option (κ × ν))} {position position' : ℕ} {key : κ}
    {value : ν} (h : firstEntry slots position = some (position', key, value)) :
    ∃ i, position' = position + i ∧
      slots.reduceOption = (key, value) :: (slots.drop i).reduceOption := by
  induction slots generalizing position with
  | nil => cases h
  | cons slot rest ih =>
    cases slot with
    | none =>
      obtain ⟨i, hi, hrest⟩ := ih h
      refine ⟨i + 1, by omega, ?_⟩
      rw [List.reduceOption_cons_of_none, List.drop_succ_cons]
      exact hrest
    | some e =>
      cases h
      exact ⟨1, rfl, rfl⟩

namespace Dict

variable {d : Dict κ ν} {it : Iter} {p : κ → ν → Bool}

theorem behind_append_ahead (d : Dict κ ν) (position : ℕ) :
    d.behind position ++ d.ahead position = d.entries := by
  rw [behind, ahead, ← List.reduceOption_append, List.take_append_drop, entries]

theorem mem_entries_of_behind {position : ℕ} {e : κ × ν} (h : e ∈ d.behind position) :
    e ∈ d.entries := by
  rw [← behind_append_ahead d position]
  exact List.mem_append_left _ h

theorem mem_entries_of_ahead {position : ℕ} {e : κ × ν} (h : e ∈ d.ahead position) :
    e ∈ d.entries := by
  rw [← behind_append_ahead d position]
  exact List.mem_append_right _ h

theorem behind_of_ahead {position position' : ℕ} {passed : List (κ × ν)}
    (h : d.ahead position = passed ++ d.ahead position') :
    d.behind position' = d.behind position ++ passed := by
  have hwhole : d.behind position' ++ d.ahead position' =
      d.behind position ++ passed ++ d.ahead position' := by
    rw [behind_append_ahead, List.append_assoc, ← h, behind_append_ahead]
  exact List.append_cancel_right hwhole

theorem undisturbed_iter (d : Dict κ ν) : d.Undisturbed d.iter := ⟨rfl, Nat.le_refl _⟩

theorem next_of_size_ne (h : d.size ≠ it.used) : d.next it = .raises := if_pos h

theorem next_undisturbed (h : d.Undisturbed it) :
    (d.next it = .stops ∧ d.ahead it.position = []) ∨ ∃ key value it',
      d.next it = .yields key value it' ∧ d.Undisturbed it' ∧ it'.left + 1 = it.left ∧
        d.ahead it.position = (key, value) :: d.ahead it'.position := by
  obtain ⟨hsize, hahead⟩ := h
  unfold next
  rw [if_neg (not_not.mpr hsize)]
  cases hfirst : firstEntry (d.slots.drop it.position) it.position with
  | none => exact Or.inl ⟨rfl, firstEntry_none hfirst⟩
  | some found =>
    obtain ⟨position, key, value⟩ := found
    obtain ⟨i, hi, hentries⟩ := firstEntry_some hfirst
    have hsplit : d.ahead it.position = (key, value) :: d.ahead position := by
      rw [ahead, ahead, hentries, List.drop_drop, hi]
    rw [hsplit, List.length_cons] at hahead
    have hleft : it.left ≠ 0 := by omega
    refine Or.inr ⟨key, value, ⟨position, it.used, it.left - 1⟩, if_neg hleft, ⟨hsize, ?_⟩, ?_, hsplit⟩
    · exact Nat.le_sub_one_of_lt hahead
    · exact Nat.succ_pred hleft

theorem seek_of_size_ne (h : d.size ≠ it.used) : d.seek p it = .raises := by
  unfold seek
  cases it.left with
  | zero => exact next_of_size_ne h
  | succ n =>
    unfold seekLoop
    rw [next_of_size_ne h]

/-- An undisturbed loop passes over entries that do not satisfy `p`, up to one that does or to the
end. -/
theorem seek_undisturbed (h : d.Undisturbed it) :
    (d.seek p it = .stops ∧ ∀ e ∈ d.ahead it.position, p e.1 e.2 = false) ∨
      ∃ key value it' passed, d.seek p it = .yields key value it' ∧ d.Undisturbed it' ∧
        it'.left < it.left ∧ p key value = true ∧ (∀ e ∈ passed, p e.1 e.2 = false) ∧
        d.ahead it.position = passed ++ (key, value) :: d.ahead it'.position := by
  have hloop : ∀ n it, d.Undisturbed it → it.left ≤ n →
      (d.seekLoop p n it = .stops ∧ ∀ e ∈ d.ahead it.position, p e.1 e.2 = false) ∨
        ∃ key value it' passed, d.seekLoop p n it = .yields key value it' ∧ d.Undisturbed it' ∧
          it'.left < it.left ∧ p key value = true ∧ (∀ e ∈ passed, p e.1 e.2 = false) ∧
          d.ahead it.position = passed ++ (key, value) :: d.ahead it'.position := by
    intro n
    induction n with
    | zero =>
      intro it h hn
      rcases next_undisturbed h with ⟨hnext, hahead⟩ | ⟨key, value, it', -, -, hleft, -⟩
      · refine Or.inl ⟨hnext, ?_⟩
        rw [hahead]
        intro e he
        exact absurd he List.not_mem_nil
      · omega
    | succ n ih =>
      intro it h hn
      unfold seekLoop
      rcases next_undisturbed h with ⟨hnext, hahead⟩ | ⟨key, value, it', hnext, hit', hleft, hsplit⟩
      · rw [hnext, hahead]
        exact Or.inl ⟨rfl, fun e he => absurd he List.not_mem_nil⟩
      · rw [hnext, hsplit]
        by_cases hp : p key value = true
        · refine Or.inr ⟨key, value, it', [], if_pos hp, hit', by omega, hp, ?_, rfl⟩
          intro e he
          exact absurd he List.not_mem_nil
        · have hpass : (if p key value = true then Next.yields key value it'
              else seekLoop p d n it') = seekLoop p d n it' := if_neg hp
          simp only [hpass]
          rcases ih it' hit' (by omega) with ⟨hstops, hall⟩ |
            ⟨key', value', it'', passed, hyields, hit'', hleft'', hp', hpassed, hahead⟩
          · refine Or.inl ⟨hstops, ?_⟩
            rw [List.forall_mem_cons]
            exact ⟨Bool.eq_false_iff.mpr hp, hall⟩
          · refine Or.inr ⟨key', value', it'', (key, value) :: passed, hyields, hit'', by omega, hp', ?_,
              ?_⟩
            · rw [List.forall_mem_cons]
              exact ⟨Bool.eq_false_iff.mpr hp, hpassed⟩
            · rw [hahead, List.cons_append]
  exact hloop it.left it h (Nat.le_refl it.left)

theorem ahead_mapValues (f : κ → ν → ν) (position : ℕ) :
    (d.mapValues f).ahead position = (d.ahead position).map fun e => (e.1, f e.1 e.2) := by
  rw [ahead, ahead, mapValues, ← List.map_drop, List.reduceOption_map]

theorem behind_mapValues (f : κ → ν → ν) (position : ℕ) :
    (d.mapValues f).behind position = (d.behind position).map fun e => (e.1, f e.1 e.2) := by
  rw [behind, behind, mapValues, ← List.map_take, List.reduceOption_map]

theorem entries_mapValues (f : κ → ν → ν) :
    (d.mapValues f).entries = d.entries.map fun e => (e.1, f e.1 e.2) := ahead_mapValues f 0

@[simp] theorem size_mapValues (f : κ → ν → ν) : (d.mapValues f).size = d.size := by
  rw [size, entries_mapValues, List.length_map, size]

theorem mapValues_mapValues (f g : κ → ν → ν) :
    (d.mapValues f).mapValues g = d.mapValues fun key value => g key (f key value) := by
  simp only [mapValues, List.map_map, mk.injEq]
  apply List.map_congr_left
  intro slot _
  cases slot with
  | none => rfl
  | some e => rfl

theorem mapValues_congr {f g : κ → ν → ν} (h : ∀ e ∈ d.entries, f e.1 e.2 = g e.1 e.2) :
    d.mapValues f = d.mapValues g := by
  simp only [mapValues, mk.injEq]
  apply List.map_congr_left
  intro slot hslot
  cases slot with
  | none => rfl
  | some e =>
    have he := h e (List.reduceOption_mem_iff.mpr hslot)
    simp only [Option.map_some, he]

@[simp] theorem undisturbed_mapValues (f : κ → ν → ν) :
    (d.mapValues f).Undisturbed it ↔ d.Undisturbed it := by
  rw [Undisturbed, Undisturbed, size_mapValues, ahead_mapValues, List.length_map]

section

variable [DecidableEq κ] {key : κ} {value : ν}

theorem entries_pop : (d.pop key).entries = d.entries.filter fun e => e.1 ≠ key :=
  reduceOption_map_filter _ d.slots

theorem pop_of_not_mem (h : key ∉ d.keys) : d.pop key = d := by
  have hslots : d.slots.map (Option.filter fun e => e.1 ≠ key) = d.slots := by
    conv_rhs => rw [← List.map_id d.slots]
    apply List.map_congr_left
    intro slot hslot
    cases slot with
    | none => rfl
    | some e =>
      have hne : e.1 ≠ key := by
        rintro rfl
        exact h (List.mem_map_of_mem (List.reduceOption_mem_iff.mpr hslot))
      simp [hne]
  cases d with
  | mk slots unique => simpa [pop] using hslots

theorem size_pop_lt (h : key ∈ d.keys) : (d.pop key).size < d.size := by
  obtain ⟨e, he, rfl⟩ := List.mem_map.mp h
  rw [size, size, entries_pop]
  apply List.length_filter_lt_length_iff_exists.mpr
  exact ⟨e, he, by simp⟩

theorem entries_set_of_not_mem (compacts : Bool) (h : key ∉ d.keys) :
    (d.set compacts key value).entries = d.entries ++ [(key, value)] := by
  rw [set, dif_neg h, entries, List.reduceOption_append]
  cases compacts with
  | true => exact congrArg (· ++ [(key, value)]) (reduceOption_map_some d.entries)
  | false => rfl

theorem set_of_mem (compacts : Bool) (h : key ∈ d.keys) :
    d.set compacts key value = d.modify key fun _ => value := dif_pos h

end

end Dict

end LiveDict
