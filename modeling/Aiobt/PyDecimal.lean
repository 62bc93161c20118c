import Mathlib.Data.Nat.Digits.Lemmas
import Mathlib.Data.List.TakeWhile
import Aiobt.ByteStrings

/-! # Decimal text of integers, as CPython reads and prints it

`natText` and `intText` are `str()` on integers. `pyInt` is `int()` on a byte string: it skips
ASCII white space on both sides, takes one sign, and allows single underscores between digits.
Both directions share the interpreter's limit on the number of decimal digits. -/
namespace PyDecimal

open ByteStrings

def isSpace (b : UInt8) : Bool := b == 32 || (9 ≤ b && b ≤ 13)
def isDigit (b : UInt8) : Bool := 48 ≤ b && b ≤ 57
def isPlain (b : UInt8) : Bool := b == 45 || isDigit b

def digitByte (d : ℕ) : UInt8 := UInt8.ofNat (48 + d)
def digitOf (b : UInt8) : ℕ := b.toNat - 48

def natText (n : ℕ) : Bytes :=
  if n = 0 then [48] else (Nat.digits 10 n).reverse.map digitByte

def intText (z : ℤ) : Bytes :=
  if z < 0 then 45 :: natText z.natAbs else natText z.natAbs

def digitsValue (text : Bytes) : ℕ := Nat.ofDigits 10 (text.map digitOf).reverse

/-- `sys.set_int_max_str_digits`: zero switches the limit off. -/
def WithinLimit (maxDigits digits : ℕ) : Prop := maxDigits = 0 ∨ digits ≤ maxDigits

instance (maxDigits digits : ℕ) : Decidable (WithinLimit maxDigits digits) :=
  inferInstanceAs (Decidable (_ ∨ _))

/-- Digits with single underscores between them; `prevDigit` tells whether a digit came before. -/
def groupedDigits (prevDigit : Bool) : Bytes → Bool
  | [] => prevDigit
  | b :: rest =>
    if isDigit b then groupedDigits true rest
    else b == 95 && prevDigit && groupedDigits false rest

def unsignedValue (maxDigits : ℕ) (text : Bytes) : Option ℕ :=
  let body := text.takeWhile fun b => isDigit b || b == 95
  let rest := text.dropWhile fun b => isDigit b || b == 95
  let digits := body.filter isDigit
  if groupedDigits false body && rest.all isSpace && decide (WithinLimit maxDigits digits.length)
  then some (digitsValue digits) else none

/-- `int(raw)` on a byte string; `none` stands for `ValueError`. -/
def pyInt (maxDigits : ℕ) (raw : Bytes) : Option ℤ :=
  match raw.dropWhile isSpace with
  | [] => none
  | b :: rest =>
    if b = 43 then (unsignedValue maxDigits rest).map fun (n : ℕ) => (n : ℤ)
    else if b = 45 then (unsignedValue maxDigits rest).map fun (n : ℕ) => -(n : ℤ)
    else (unsignedValue maxDigits (b :: rest)).map fun (n : ℕ) => (n : ℤ)

theorem isDigit_iff {b : UInt8} : isDigit b = true ↔ 48 ≤ b.toNat ∧ b.toNat ≤ 57 := by
  simp [isDigit, UInt8.le_iff_toNat_le]

@[simp] theorem digitByte_toNat {d : ℕ} (h : d < 10) : (digitByte d).toNat = 48 + d := by
  rw [digitByte, UInt8.toNat_ofNat']
  omega

theorem digitByte_isDigit {d : ℕ} (h : d < 10) : isDigit (digitByte d) = true := by
  rw [isDigit_iff, digitByte_toNat h]
  omega

@[simp] theorem digitOf_digitByte {d : ℕ} (h : d < 10) : digitOf (digitByte d) = d := by
  rw [digitOf, digitByte_toNat h]
  omega

theorem digitByte_digitOf {b : UInt8} (h : isDigit b = true) : digitByte (digitOf b) = b := by
  have hb := isDigit_iff.mp h
  apply UInt8.toNat_inj.mp
  rw [digitByte_toNat (by rw [digitOf]; omega), digitOf]
  omega

theorem digitOf_lt {b : UInt8} (h : isDigit b = true) : digitOf b < 10 := by
  have hb := isDigit_iff.mp h
  rw [digitOf]
  omega

theorem isDigit_not_space {b : UInt8} (h : isDigit b = true) : isSpace b = false := by
  have hb := isDigit_iff.mp h
  simp only [isSpace, Bool.or_eq_false_iff, beq_eq_false_iff_ne, ne_eq, Bool.and_eq_false_iff,
    decide_eq_false_iff_not, UInt8.le_iff_toNat_le, ← UInt8.toNat_inj]
  simp
  omega

theorem isDigit_ne {b c : UInt8} (h : isDigit b = true) (hc : isDigit c = false) : b ≠ c := by
  rintro rfl
  simp [h] at hc

theorem digits_lt {n d : ℕ} (h : d ∈ Nat.digits 10 n) : d < 10 :=
  Nat.digits_lt_base (by decide) h

theorem natText_isDigit {n : ℕ} {b : UInt8} (h : b ∈ natText n) : isDigit b = true := by
  unfold natText at h
  split at h
  · rw [List.mem_singleton] at h
    subst h
    decide
  · obtain ⟨d, hd, rfl⟩ := List.mem_map.mp h
    exact digitByte_isDigit (digits_lt (List.mem_reverse.mp hd))

theorem natText_ne_nil (n : ℕ) : natText n ≠ [] := by
  unfold natText
  split
  · simp
  · next h => simpa [Nat.digits_ne_nil_iff_ne_zero] using h

theorem digitsValue_natText (n : ℕ) : digitsValue (natText n) = n := by
  unfold natText digitsValue
  split
  · next h => subst h; rfl
  · have hm : (Nat.digits 10 n).map (digitOf ∘ digitByte) = Nat.digits 10 n := by
      conv_rhs => rw [← List.map_id (Nat.digits 10 n)]
      apply List.map_congr_left
      intro d hd
      simp [digitOf_digitByte (digits_lt hd)]
    rw [List.map_map, List.map_reverse, List.reverse_reverse, hm, Nat.ofDigits_digits]

theorem natText_head {n : ℕ} (h : n ≠ 0) {rest : Bytes} : natText n ≠ 48 :: rest := by
  intro heq
  unfold natText at heq
  rw [if_neg h, List.map_reverse] at heq
  have hne : Nat.digits 10 n ≠ [] := Nat.digits_ne_nil_iff_ne_zero.mpr h
  have hlast := Nat.getLast_digit_ne_zero 10 h
  have hhead : ((Nat.digits 10 n).map digitByte).getLast (by simpa using hne) = 48 := by
    have : ((Nat.digits 10 n).map digitByte).reverse.head (by simpa using hne) = 48 := by
      simp only [heq, List.head_cons]
    simpa using this
  rw [List.getLast_map] at hhead
  have hlt := digits_lt (List.getLast_mem hne)
  have := congrArg UInt8.toNat hhead
  rw [digitByte_toNat hlt] at this
  simp at this
  exact hlast this

/-- A digit string without a superfluous leading zero is the printed form of its value. -/
theorem natText_digitsValue {text : Bytes} (hne : text ≠ [])
    (hd : ∀ b ∈ text, isDigit b = true) (hz : text.head? = some 48 → text.length = 1) :
    natText (digitsValue text) = text := by
  have hlt : ∀ d ∈ (text.map digitOf).reverse, d < 10 := by
    intro d hm
    obtain ⟨b, hb, rfl⟩ := List.mem_map.mp (List.mem_reverse.mp hm)
    exact digitOf_lt (hd b hb)
  cases text with
  | nil => exact absurd rfl hne
  | cons b rest =>
    by_cases hb : b = 48
    · subst hb
      have : rest = [] := by simpa using hz rfl
      subst this
      rfl
    · have hlast : ∀ h : ((b :: rest).map digitOf).reverse ≠ [],
          (((b :: rest).map digitOf).reverse).getLast h ≠ 0 := by
        intro h
        simp only [List.map_cons, List.reverse_cons, List.getLast_append_singleton]
        have := isDigit_iff.mp (hd b (List.mem_cons_self ..))
        intro h0
        apply hb
        apply UInt8.toNat_inj.mp
        rw [digitOf] at h0
        change b.toNat = 48
        omega
      have hdig := Nat.digits_ofDigits 10 (by decide) _ hlt hlast
      have hval : digitsValue (b :: rest) ≠ 0 := by
        intro h0
        rw [digitsValue] at h0
        rw [h0] at hdig
        simp at hdig
      rw [natText, if_neg hval, digitsValue, hdig, List.reverse_reverse, List.map_map]
      conv_rhs => rw [← List.map_id (b :: rest)]
      apply List.map_congr_left
      intro c hc
      exact digitByte_digitOf (hd c hc)

theorem intText_ofNat (n : ℕ) : intText (n : ℤ) = natText n := by
  simp [intText]

theorem intText_neg {n : ℕ} (h : n ≠ 0) : intText (-(n : ℤ)) = 45 :: natText n := by
  rw [intText, if_pos (by omega), Int.natAbs_neg, Int.natAbs_natCast]

theorem intText_isPlain {z : ℤ} {b : UInt8} (h : b ∈ intText z) : isPlain b = true := by
  unfold intText at h
  split at h
  · rcases List.mem_cons.mp h with rfl | h
    · decide
    · simp [isPlain, natText_isDigit h]
  · simp [isPlain, natText_isDigit h]

theorem groupedDigits_of_digits {prev : Bool} {text : Bytes} (hd : ∀ b ∈ text, isDigit b = true)
    (hne : text ≠ [] ∨ prev = true) : groupedDigits prev text = true := by
  induction text generalizing prev with
  | nil => simpa [groupedDigits] using hne
  | cons b rest ih =>
    rw [groupedDigits, if_pos (hd b (List.mem_cons_self ..))]
    exact ih (fun c hc => hd c (List.mem_cons_of_mem _ hc)) (Or.inr rfl)

theorem unsignedValue_of_digits {maxDigits : ℕ} {text : Bytes} (hne : text ≠ [])
    (hd : ∀ b ∈ text, isDigit b = true) (hlim : WithinLimit maxDigits text.length) :
    unsignedValue maxDigits text = some (digitsValue text) := by
  have hbody : text.takeWhile (fun b => isDigit b || b == 95) = text :=
    List.takeWhile_eq_self_iff.mpr fun b hb => by simp [hd b hb]
  have hrest : text.dropWhile (fun b => isDigit b || b == 95) = [] :=
    List.dropWhile_eq_nil_iff.mpr fun b hb => by simp [hd b hb]
  have hfilter : text.filter isDigit = text := List.filter_eq_self.mpr hd
  simp [unsignedValue, hbody, hrest, hfilter, groupedDigits_of_digits hd (Or.inl hne), hlim]

theorem dropWhile_space_digits {text : Bytes} (hd : ∀ b ∈ text, isDigit b = true) :
    text.dropWhile isSpace = text := by
  cases text with
  | nil => rfl
  | cons b rest =>
    rw [List.dropWhile_cons_of_neg]
    simp [isDigit_not_space (hd b (List.mem_cons_self ..))]

theorem pyInt_of_digits {maxDigits : ℕ} {text : Bytes} (hne : text ≠ [])
    (hd : ∀ b ∈ text, isDigit b = true) (hlim : WithinLimit maxDigits text.length) :
    pyInt maxDigits text = some (digitsValue text : ℤ) := by
  unfold pyInt
  rw [dropWhile_space_digits hd]
  cases text with
  | nil => exact absurd rfl hne
  | cons b rest =>
    have hb := hd b (List.mem_cons_self ..)
    simp [isDigit_ne hb (show isDigit 43 = false by decide),
      isDigit_ne hb (show isDigit 45 = false by decide), unsignedValue_of_digits hne hd hlim]

theorem pyInt_neg_digits {maxDigits : ℕ} {text : Bytes} (hne : text ≠ [])
    (hd : ∀ b ∈ text, isDigit b = true) (hlim : WithinLimit maxDigits text.length) :
    pyInt maxDigits (45 :: text) = some (-(digitsValue text : ℤ)) := by
  have hs : (45 :: text).dropWhile isSpace = 45 :: text :=
    List.dropWhile_cons_of_neg (by decide)
  simp [pyInt, hs, unsignedValue_of_digits hne hd hlim]

/-- Number of decimal digits `str()` prints for an integer, its sign not counted. -/
def digitCount (z : ℤ) : ℕ := (natText z.natAbs).length

theorem digitCount_pow (k : ℕ) : k < digitCount (10 ^ k) := by
  have habs : ((10 : ℤ) ^ k).natAbs = 10 ^ k := by
    rw [Int.natAbs_pow]
    rfl
  rw [digitCount, habs, natText, if_neg (by positivity), List.length_map, List.length_reverse]
  exact (Nat.lt_digits_length_iff (by decide) _).mpr le_rfl

theorem pyInt_natText {maxDigits n : ℕ} (h : WithinLimit maxDigits (natText n).length) :
    pyInt maxDigits (natText n) = some (n : ℤ) := by
  rw [pyInt_of_digits (natText_ne_nil n) (fun _ => natText_isDigit) h, digitsValue_natText]

theorem pyInt_intText {maxDigits : ℕ} {z : ℤ} (h : WithinLimit maxDigits (digitCount z)) :
    pyInt maxDigits (intText z) = some z := by
  unfold intText
  split
  · rw [pyInt_neg_digits (natText_ne_nil _) (fun _ => natText_isDigit) h, digitsValue_natText]
    congr 1
    omega
  · rw [pyInt_natText h]
    congr 1
    omega

theorem groupedDigits_ne_nil {text : Bytes} (h : groupedDigits false text = true) :
    text.filter isDigit ≠ [] := by
  cases text with
  | nil => simp [groupedDigits] at h
  | cons b rest =>
    rw [groupedDigits] at h
    split at h
    · next hb => simp [hb]
    · simp at h

/-- On a plain text only the digits after the sign matter, and they are read as they stand. -/
theorem unsignedValue_plain {maxDigits n : ℕ} {text : Bytes} (hp : ∀ b ∈ text, isPlain b = true)
    (h : unsignedValue maxDigits text = some n) :
    text ≠ [] ∧ (∀ b ∈ text, isDigit b = true) ∧ digitsValue text = n ∧
      WithinLimit maxDigits text.length := by
  unfold unsignedValue at h
  simp only [Option.ite_none_right_eq_some, Option.some.injEq, Bool.and_eq_true,
    decide_eq_true_eq] at h
  obtain ⟨⟨⟨hg, hs⟩, hl⟩, hv⟩ := h
  set p : UInt8 → Bool := fun b => isDigit b || b == 95 with hpdef
  have hrest : text.dropWhile p = [] := by
    by_contra hne
    obtain ⟨b, rest, hbr⟩ := List.exists_cons_of_ne_nil hne
    have hb : b ∈ text := List.dropWhile_subset p (by rw [hbr]; exact List.mem_cons_self ..)
    have hsp : isSpace b = true := List.all_eq_true.mp hs b (by rw [hbr]; exact List.mem_cons_self ..)
    have hpb := hp b hb
    simp only [isPlain, Bool.or_eq_true, beq_iff_eq] at hpb
    rcases hpb with rfl | hd
    · exact absurd hsp (by decide)
    · rw [isDigit_not_space hd] at hsp
      exact absurd hsp (by decide)
  have hall : text.takeWhile p = text := by
    have := List.takeWhile_append_dropWhile (p := p) (l := text)
    rwa [hrest, List.append_nil] at this
  have hdig : ∀ b ∈ text, isDigit b = true := by
    intro b hb
    have h1 := hp b hb
    have h2 := List.takeWhile_eq_self_iff.mp hall b hb
    simp only [isPlain, hpdef, Bool.or_eq_true, beq_iff_eq] at h1 h2
    rcases h1 with rfl | h1
    · rcases h2 with h2 | h2
      · exact h2
      · exact absurd h2 (by decide)
    · exact h1
  rw [hall] at hg hl hv
  have hf : text.filter isDigit = text := List.filter_eq_self.mpr hdig
  rw [hf] at hl hv
  exact ⟨hf ▸ groupedDigits_ne_nil hg, hdig, hv, hl⟩

theorem isPlain_not_space {b : UInt8} (h : isPlain b = true) : isSpace b = false := by
  simp only [isPlain, Bool.or_eq_true, beq_iff_eq] at h
  rcases h with rfl | h
  · decide
  · exact isDigit_not_space h

/-- Plain texts that are read are a digit string or a minus sign and a digit string. -/
theorem pyInt_plain {maxDigits : ℕ} {raw : Bytes} {z : ℤ} (hp : ∀ b ∈ raw, isPlain b = true)
    (h : pyInt maxDigits raw = some z) :
    (raw ≠ [] ∧ (∀ b ∈ raw, isDigit b = true) ∧ z = digitsValue raw ∧
      WithinLimit maxDigits raw.length) ∨
    ∃ text, raw = 45 :: text ∧ text ≠ [] ∧ (∀ b ∈ text, isDigit b = true) ∧
      z = -(digitsValue text : ℤ) ∧ WithinLimit maxDigits text.length := by
  unfold pyInt at h
  cases raw with
  | nil => simp at h
  | cons b rest =>
    have hb := hp b (List.mem_cons_self ..)
    rw [List.dropWhile_cons_of_neg (by simp [isPlain_not_space hb])] at h
    have h43 : b ≠ 43 := by
      rintro rfl
      exact absurd hb (by decide)
    simp only [h43, if_false] at h
    by_cases h45 : b = 45
    · subst h45
      simp only [if_true, Option.map_eq_some_iff] at h
      obtain ⟨n, hn, rfl⟩ := h
      obtain ⟨hne, hd, rfl, hlim⟩ :=
        unsignedValue_plain (fun c hc => hp c (List.mem_cons_of_mem _ hc)) hn
      exact Or.inr ⟨rest, rfl, hne, hd, rfl, hlim⟩
    · simp only [h45, if_false, Option.map_eq_some_iff] at h
      obtain ⟨n, hn, rfl⟩ := h
      obtain ⟨hne, hd, rfl, hlim⟩ := unsignedValue_plain hp hn
      exact Or.inl ⟨hne, hd, rfl, hlim⟩

/-- A text that starts with a digit is never read as a negative number. -/
theorem pyInt_nonneg {maxDigits : ℕ} {b : UInt8} {rest : Bytes} {z : ℤ} (hb : isDigit b = true)
    (h : pyInt maxDigits (b :: rest) = some z) : 0 ≤ z := by
  unfold pyInt at h
  rw [List.dropWhile_cons_of_neg (by simp [isDigit_not_space hb])] at h
  simp only [isDigit_ne hb (show isDigit 43 = false by decide),
    isDigit_ne hb (show isDigit 45 = false by decide), if_false, Option.map_eq_some_iff] at h
  obtain ⟨n, -, rfl⟩ := h
  exact Int.natCast_nonneg n

end PyDecimal
