import Aiobt.SurrogateUtf8
import Mathlib.Algebra.Order.Ring.Nat

/-! # Strict UTF-8

`str.encode("utf-8")`, which refuses lone surrogates, and its round trips with the decoder that
makes them. -/
namespace StrictUtf8

open ByteStrings SurrogateUtf8

/-- A code point that strict UTF-8 can say. -/
def IsScalar (c : ℕ) : Prop := c < 0x110000 ∧ ¬ (0xD800 ≤ c ∧ c ≤ 0xDFFF)

instance (c : ℕ) : Decidable (IsScalar c) := inferInstanceAs (Decidable (_ ∧ _))

/-- `none` where the codec raises `UnicodeEncodeError`. -/
def encodePoint (c : ℕ) : Option Bytes :=
  if c < 0x80 then some [UInt8.ofNat c]
  else if c < 0x800 then some [UInt8.ofNat (0xC0 + c / 64), UInt8.ofNat (0x80 + c % 64)]
  else if 0xD800 ≤ c ∧ c ≤ 0xDFFF then none
  else if c < 0x10000 then
    some [UInt8.ofNat (0xE0 + c / 4096), UInt8.ofNat (0x80 + c / 64 % 64),
      UInt8.ofNat (0x80 + c % 64)]
  else if c < 0x110000 then
    some [UInt8.ofNat (0xF0 + c / 262144), UInt8.ofNat (0x80 + c / 4096 % 64),
      UInt8.ofNat (0x80 + c / 64 % 64), UInt8.ofNat (0x80 + c % 64)]
  else none

def encodeUtf8 : PyStr → Option Bytes
  | [] => some []
  | c :: rest => (encodePoint c).bind fun w => (encodeUtf8 rest).map (w ++ ·)

theorem encodePoint_isSome {c : ℕ} : (encodePoint c).isSome ↔ IsScalar c := by
  unfold encodePoint IsScalar
  split_ifs <;> simp <;> omega

/-- Exactly the strings of scalar values are encodable. -/
theorem encodeUtf8_isSome {s : PyStr} : (encodeUtf8 s).isSome ↔ ∀ c ∈ s, IsScalar c := by
  induction s with
  | nil => simp [encodeUtf8]
  | cons c rest ih =>
    rw [List.forall_mem_cons, ← ih, ← encodePoint_isSome, encodeUtf8]
    cases encodePoint c with
    | none => simp
    | some w => simp

theorem isTail_iff {b : UInt8} : isTail b = true ↔ 0x80 ≤ b.toNat ∧ b.toNat ≤ 0xBF := by
  simp [isTail, UInt8.le_iff_toNat_le]

theorem tailBits_eq (b : UInt8) : tailBits b = b.toNat - 0x80 := rfl

theorem secondOfThree_iff {lead b : UInt8} : secondOfThree lead b = true ↔
    (0x80 ≤ b.toNat ∧ b.toNat ≤ 0xBF) ∧ (lead.toNat = 0xE0 → 0xA0 ≤ b.toNat) ∧
      (lead.toNat = 0xED → b.toNat ≤ 0x9F) := by
  simp only [secondOfThree, Bool.and_eq_true, isTail_iff, Bool.or_eq_true, bne_iff_ne,
    decide_eq_true_eq, UInt8.le_iff_toNat_le, ne_eq, ← UInt8.toNat_inj, UInt8.toNat_ofNat]
  omega

theorem secondOfFour_iff {lead b : UInt8} : secondOfFour lead b = true ↔
    (0x80 ≤ b.toNat ∧ b.toNat ≤ 0xBF) ∧ (lead.toNat = 0xF0 → 0x90 ≤ b.toNat) ∧
      (lead.toNat = 0xF4 → b.toNat ≤ 0x8F) := by
  simp only [secondOfFour, Bool.and_eq_true, isTail_iff, Bool.or_eq_true, bne_iff_ne,
    decide_eq_true_eq, UInt8.le_iff_toNat_le, ne_eq, ← UInt8.toNat_inj, UInt8.toNat_ofNat]
  omega

section Leads

variable {lead b c d : UInt8} {rest : Bytes}

theorem codePoint_one (hlead : lead.toNat < 0x80) : codePoint lead rest = some (lead.toNat, 0) := by
  have h1 : lead < 0x80 := UInt8.lt_iff_toNat_lt.mpr hlead
  rw [codePoint.eq_def, if_pos h1]

theorem codePoint_two (hlow : 0xC2 ≤ lead.toNat) (hhigh : lead.toNat ≤ 0xDF)
    (hb : isTail b = true) :
    codePoint lead (b :: rest) = some ((lead.toNat - 0xC0) * 64 + tailBits b, 1) := by
  simp [codePoint, UInt8.lt_iff_toNat_lt, UInt8.le_iff_toNat_le, hb, hlow, hhigh,
    show ¬ lead.toNat < 128 by omega]

theorem codePoint_three (hlow : 0xE0 ≤ lead.toNat) (hhigh : lead.toNat ≤ 0xEF)
    (hb : secondOfThree lead b = true) (hc : isTail c = true) :
    codePoint lead (b :: c :: rest) =
      some (((lead.toNat - 0xE0) * 64 + tailBits b) * 64 + tailBits c, 2) := by
  simp [codePoint, UInt8.lt_iff_toNat_lt, UInt8.le_iff_toNat_le, hb, hc, hlow, hhigh,
    show ¬ lead.toNat < 128 by omega, show ¬ lead.toNat ≤ 223 by omega]

theorem codePoint_four (hlow : 0xF0 ≤ lead.toNat) (hhigh : lead.toNat ≤ 0xF4)
    (hb : secondOfFour lead b = true) (hc : isTail c = true) (hd : isTail d = true) :
    codePoint lead (b :: c :: d :: rest) =
      some ((((lead.toNat - 0xF0) * 64 + tailBits b) * 64 + tailBits c) * 64 + tailBits d, 3) := by
  simp [codePoint, UInt8.lt_iff_toNat_lt, UInt8.le_iff_toNat_le, hb, hc, hd, hlow, hhigh,
    show ¬ lead.toNat < 128 by omega, show ¬ lead.toNat ≤ 223 by omega,
    show ¬ lead.toNat ≤ 239 by omega]

end Leads

/-- The four forms of a well-formed sequence, and the code point that it says. -/
inductive Sequence (point : ℕ) : Bytes → Prop
  | one {lead : UInt8} : lead.toNat < 0x80 → point = lead.toNat → Sequence point [lead]
  | two {lead b : UInt8} : 0xC2 ≤ lead.toNat → lead.toNat ≤ 0xDF → isTail b = true →
      point = (lead.toNat - 0xC0) * 64 + tailBits b → Sequence point [lead, b]
  | three {lead b c : UInt8} : 0xE0 ≤ lead.toNat → lead.toNat ≤ 0xEF →
      secondOfThree lead b = true → isTail c = true →
      point = ((lead.toNat - 0xE0) * 64 + tailBits b) * 64 + tailBits c →
      Sequence point [lead, b, c]
  | four {lead b c d : UInt8} : 0xF0 ≤ lead.toNat → lead.toNat ≤ 0xF4 →
      secondOfFour lead b = true → isTail c = true → isTail d = true →
      point = (((lead.toNat - 0xF0) * 64 + tailBits b) * 64 + tailBits c) * 64 + tailBits d →
      Sequence point [lead, b, c, d]

theorem Sequence.codePoint {w : Bytes} {point : ℕ} (h : Sequence point w) (rest : Bytes) :
    ∃ lead tail, w = lead :: tail ∧ codePoint lead (tail ++ rest) = some (point, tail.length) := by
  cases h with
  | one hlead hpoint => exact ⟨_, [], rfl, hpoint ▸ codePoint_one hlead⟩
  | two hlow hhigh hb hpoint => exact ⟨_, [_], rfl, hpoint ▸ codePoint_two hlow hhigh hb⟩
  | three hlow hhigh hb hc hpoint =>
    exact ⟨_, [_, _], rfl, hpoint ▸ codePoint_three hlow hhigh hb hc⟩
  | four hlow hhigh hb hc hd hpoint =>
    exact ⟨_, [_, _, _], rfl, hpoint ▸ codePoint_four hlow hhigh hb hc hd⟩

theorem sequence_of_codePoint {lead : UInt8} {rest : Bytes} {point more : ℕ}
    (h : codePoint lead rest = some (point, more)) :
    ∃ tail after, rest = tail ++ after ∧ tail.length = more ∧ Sequence point (lead :: tail) := by
  unfold SurrogateUtf8.codePoint at h
  simp only [UInt8.lt_iff_toNat_lt, UInt8.le_iff_toNat_le, Bool.and_eq_true,
    decide_eq_true_eq] at h
  split_ifs at h with h1 h2 h3 h4
  · obtain ⟨rfl, rfl⟩ := Prod.mk.inj (Option.some.inj h)
    exact ⟨[], rest, rfl, rfl, .one h1 rfl⟩
  · cases rest with
    | nil => cases h
    | cons b after =>
      simp only at h
      split_ifs at h with hb
      obtain ⟨hpoint, rfl⟩ := Prod.mk.inj (Option.some.inj h)
      exact ⟨[b], after, rfl, rfl, .two h2.1 h2.2 hb hpoint.symm⟩
  · match rest with
    | [] => cases h
    | [_] => cases h
    | b :: c :: after =>
      simp only at h
      split_ifs at h with hb
      obtain ⟨hpoint, rfl⟩ := Prod.mk.inj (Option.some.inj h)
      exact ⟨[b, c], after, rfl, rfl, .three h3.1 h3.2 hb.1 hb.2 hpoint.symm⟩
  · match rest with
    | [] => cases h
    | [_] => cases h
    | [_, _] => cases h
    | b :: c :: d :: after =>
      simp only at h
      split_ifs at h with hb
      obtain ⟨hpoint, rfl⟩ := Prod.mk.inj (Option.some.inj h)
      exact ⟨[b, c, d], after, rfl, rfl, .four h4.1 h4.2 hb.1.1 hb.1.2 hb.2 hpoint.symm⟩

theorem byte_eq {b : UInt8} {n : ℕ} (h : b.toNat = n) : UInt8.ofNat n = b := by
  rw [← h, UInt8.ofNat_toNat]

section Ranges

variable {c : ℕ}

theorem encodePoint_one (hhigh : c < 0x80) : encodePoint c = some [UInt8.ofNat c] := if_pos hhigh

theorem encodePoint_two (hlow : 0x80 ≤ c) (hhigh : c < 0x800) : encodePoint c =
    some [UInt8.ofNat (0xC0 + c / 64), UInt8.ofNat (0x80 + c % 64)] := by
  rw [encodePoint, if_neg (Nat.not_lt.mpr hlow), if_pos hhigh]

theorem encodePoint_three (hlow : 0x800 ≤ c) (hhigh : c < 0x10000)
    (hpair : ¬ (0xD800 ≤ c ∧ c ≤ 0xDFFF)) : encodePoint c =
    some [UInt8.ofNat (0xE0 + c / 4096), UInt8.ofNat (0x80 + c / 64 % 64),
      UInt8.ofNat (0x80 + c % 64)] := by
  have hascii : ¬ c < 0x80 := by omega
  rw [encodePoint, if_neg hascii, if_neg (Nat.not_lt.mpr hlow), if_neg hpair, if_pos hhigh]

theorem encodePoint_four (hlow : 0x10000 ≤ c) (hhigh : c < 0x110000) : encodePoint c =
    some [UInt8.ofNat (0xF0 + c / 262144), UInt8.ofNat (0x80 + c / 4096 % 64),
      UInt8.ofNat (0x80 + c / 64 % 64), UInt8.ofNat (0x80 + c % 64)] := by
  have hascii : ¬ c < 0x80 := by omega
  have htwo : ¬ c < 0x800 := by omega
  have hpair : ¬ (0xD800 ≤ c ∧ c ≤ 0xDFFF) := by omega
  rw [encodePoint, if_neg hascii, if_neg htwo, if_neg hpair, if_neg (Nat.not_lt.mpr hlow),
    if_pos hhigh]

end Ranges

theorem Sequence.encodePoint {w : Bytes} {point : ℕ} (h : Sequence point w) :
    encodePoint point = some w := by
  cases h with
  | one hlead hpoint =>
    rw [encodePoint_one (hpoint ▸ hlead), byte_eq hpoint.symm]
  | @two lead b hlow hhigh hb hpoint =>
    rw [isTail_iff] at hb
    have hbits := tailBits_eq b
    have hlead : UInt8.ofNat (0xC0 + point / 64) = lead := byte_eq (by omega)
    have hb' : UInt8.ofNat (0x80 + point % 64) = b := byte_eq (by omega)
    rw [encodePoint_two (by omega) (by omega), hlead, hb']
  | @three lead b c hlow hhigh hb hc hpoint =>
    rw [secondOfThree_iff] at hb
    rw [isTail_iff] at hc
    have hbits := tailBits_eq b
    have hbits' := tailBits_eq c
    have hlead : UInt8.ofNat (0xE0 + point / 4096) = lead := byte_eq (by omega)
    have hb' : UInt8.ofNat (0x80 + point / 64 % 64) = b := byte_eq (by omega)
    have hc' : UInt8.ofNat (0x80 + point % 64) = c := byte_eq (by omega)
    rw [encodePoint_three (by omega) (by omega) (by omega), hlead, hb', hc']
  | @four lead b c d hlow hhigh hb hc hd hpoint =>
    rw [secondOfFour_iff] at hb
    rw [isTail_iff] at hc hd
    have hbits := tailBits_eq b
    have hbits' := tailBits_eq c
    have hbits'' := tailBits_eq d
    have hlead : UInt8.ofNat (0xF0 + point / 262144) = lead := byte_eq (by omega)
    have hb' : UInt8.ofNat (0x80 + point / 4096 % 64) = b := byte_eq (by omega)
    have hc' : UInt8.ofNat (0x80 + point / 64 % 64) = c := byte_eq (by omega)
    have hd' : UInt8.ofNat (0x80 + point % 64) = d := byte_eq (by omega)
    rw [encodePoint_four (by omega) (by omega), hlead, hb', hc', hd']

theorem sequence_of_encodePoint {w : Bytes} {point : ℕ}
    (h : StrictUtf8.encodePoint point = some w) : Sequence point w := by
  have htail : ∀ k, (UInt8.ofNat (0x80 + k % 64)).toNat = 0x80 + k % 64 := by
    intro k
    exact UInt8.toNat_ofNat_of_lt' (show 0x80 + k % 64 < 256 by omega)
  have hscalar : IsScalar point := by
    rw [← encodePoint_isSome, h]
    rfl
  obtain ⟨hmax, hpair⟩ := hscalar
  by_cases hone : point < 0x80
  · rw [encodePoint_one hone] at h
    obtain rfl := Option.some.inj h
    have hlead := UInt8.toNat_ofNat_of_lt' (show point < 256 by omega)
    exact .one (by omega) hlead.symm
  · by_cases htwo : point < 0x800
    · rw [encodePoint_two (by omega) htwo] at h
      obtain rfl := Option.some.inj h
      have hlead := UInt8.toNat_ofNat_of_lt' (show 0xC0 + point / 64 < 256 by omega)
      have hb := htail point
      have hbits := tailBits_eq (UInt8.ofNat (0x80 + point % 64))
      apply Sequence.two
      · omega
      · omega
      · rw [isTail_iff]
        omega
      · omega
    · by_cases hthree : point < 0x10000
      · rw [encodePoint_three (by omega) hthree hpair] at h
        obtain rfl := Option.some.inj h
        have hlead := UInt8.toNat_ofNat_of_lt' (show 0xE0 + point / 4096 < 256 by omega)
        have hb := htail (point / 64)
        have hc := htail point
        have hbits := tailBits_eq (UInt8.ofNat (0x80 + point / 64 % 64))
        have hbits' := tailBits_eq (UInt8.ofNat (0x80 + point % 64))
        apply Sequence.three
        · omega
        · omega
        · rw [secondOfThree_iff]
          omega
        · rw [isTail_iff]
          omega
        · omega
      · rw [encodePoint_four (by omega) hmax] at h
        obtain rfl := Option.some.inj h
        have hlead := UInt8.toNat_ofNat_of_lt' (show 0xF0 + point / 262144 < 256 by omega)
        have hb := htail (point / 4096)
        have hc := htail (point / 64)
        have hd := htail point
        have hbits := tailBits_eq (UInt8.ofNat (0x80 + point / 4096 % 64))
        have hbits' := tailBits_eq (UInt8.ofNat (0x80 + point / 64 % 64))
        have hbits'' := tailBits_eq (UInt8.ofNat (0x80 + point % 64))
        apply Sequence.four
        · omega
        · omega
        · rw [secondOfFour_iff]
          omega
        · rw [isTail_iff]
          omega
        · rw [isTail_iff]
          omega
        · omega

theorem decodeFrom_skip (tail rest : Bytes) :
    decodeFrom tail.length (tail ++ rest) = decodeFrom 0 rest := by
  induction tail with
  | nil => rfl
  | cons b tail ih => exact ih

theorem decodeFrom_sequence {w : Bytes} {point : ℕ} (h : Sequence point w) (rest : Bytes) :
    decodeFrom 0 (w ++ rest) = point :: decodeFrom 0 rest := by
  obtain ⟨lead, tail, rfl, hcode⟩ := h.codePoint rest
  rw [List.cons_append, decodeFrom, hcode]
  simp only [decodeFrom_skip]

theorem decodeUtf8_encodeUtf8 {s : PyStr} {w : Bytes} (h : encodeUtf8 s = some w) :
    decodeUtf8 w = s := by
  induction s generalizing w with
  | nil =>
    obtain rfl := Option.some.inj h
    rfl
  | cons c rest ih =>
    obtain ⟨front, hfront, hmore⟩ := Option.bind_eq_some_iff.mp h
    obtain ⟨after, hafter, rfl⟩ := Option.map_eq_some_iff.mp hmore
    rw [decodeUtf8, decodeFrom_sequence (sequence_of_encodePoint hfront)]
    exact congrArg _ (ih hafter)

theorem not_isScalar_escape (b : UInt8) (h : ¬ b.toNat < 0x80) : ¬ IsScalar (0xDC00 + b.toNat) := by
  rintro ⟨-, hpair⟩
  have hb := b.toNat_lt
  omega

theorem encodeUtf8_decodeUtf8 {data : Bytes} (h : ∀ c ∈ decodeUtf8 data, IsScalar c) :
    encodeUtf8 (decodeUtf8 data) = some data := by
  induction hn : data.length using Nat.strong_induction_on generalizing data with
  | _ n ih =>
    cases data with
    | nil => rfl
    | cons lead rest =>
      cases hcode : codePoint lead rest with
      | none =>
        have hlead : ¬ lead.toNat < 0x80 := by
          intro hlead
          rw [codePoint_one hlead] at hcode
          cases hcode
        have hmem : 0xDC00 + lead.toNat ∈ decodeUtf8 (lead :: rest) := by
          rw [decodeUtf8, decodeFrom, hcode]
          exact List.mem_cons_self
        exact absurd (h _ hmem) (not_isScalar_escape lead hlead)
      | some found =>
        obtain ⟨point, more⟩ := found
        obtain ⟨tail, after, rfl, rfl, hseq⟩ := sequence_of_codePoint hcode
        have hdecode : decodeUtf8 (lead :: (tail ++ after)) = point :: decodeUtf8 after :=
          decodeFrom_sequence hseq after
        rw [hdecode] at h ⊢
        have hlen : after.length < n := by
          rw [← hn, List.length_cons, List.length_append]
          omega
        have hafter := ih after.length hlen (fun c hc => h c (List.mem_cons_of_mem point hc)) rfl
        rw [encodeUtf8, hseq.encodePoint, hafter]
        rfl

end StrictUtf8
