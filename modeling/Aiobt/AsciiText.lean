import Aiobt.PyDecimal
import Aiobt.SurrogateUtf8
import Mathlib.Data.List.DropRight

/-! # Lines of text

String operations as far as they concern ASCII. A string is the list of its code points. -/
namespace AsciiText

open ByteStrings PyDecimal
open SurrogateUtf8 (PyStr)

/-- `text.encode("ascii")`; `none` stands for `UnicodeEncodeError`. -/
def encodeAscii (text : PyStr) : Option Bytes :=
  if ∀ c ∈ text, c < 128 then some (text.map UInt8.ofNat) else none

/-- `data.decode("ascii", errors="replace")`. -/
def decodeReplace (data : Bytes) : PyStr := data.map fun b => if b < 128 then b.toNat else 0xFFFD

/-- `c.isspace()` for the code points that `decodeReplace` gives. -/
def isSpace (c : ℕ) : Bool := c == 32 || (9 ≤ c && c ≤ 13) || (28 ≤ c && c ≤ 31)

def strip (text : PyStr) : PyStr := (text.dropWhile isSpace).rdropWhile isSpace

def lower (text : PyStr) : PyStr := text.map fun c => if 65 ≤ c ∧ c ≤ 90 then c + 32 else c

def replaceCrLf : PyStr → PyStr
  | 13 :: 10 :: rest => 10 :: replaceCrLf rest
  | c :: rest => c :: replaceCrLf rest
  | [] => []

def replaceCr (text : PyStr) : PyStr := text.map fun c => if c = 13 then 10 else c

def splitLines (text : PyStr) : List PyStr := (replaceCr (replaceCrLf text)).splitOn 10

def splitColon (line : PyStr) : Option (PyStr × PyStr) :=
  match line.dropWhile (· ≠ 58) with
  | [] => none
  | _ :: value => some (line.takeWhile (· ≠ 58), value)

def intOfText (maxDigits : ℕ) (text : PyStr) : Option ℤ :=
  (encodeAscii text).bind (pyInt maxDigits)

def hexValue (c : ℕ) : Option ℕ :=
  if 48 ≤ c ∧ c ≤ 57 then some (c - 48)
  else if 97 ≤ c ∧ c ≤ 102 then some (c - 87)
  else if 65 ≤ c ∧ c ≤ 70 then some (c - 55)
  else none

def isBlank (c : ℕ) : Bool := c == 32 || (9 ≤ c && c ≤ 13)

/-- `bytes.fromhex(text)`: blanks may stand between the bytes. -/
def fromHex : PyStr → Option Bytes
  | [] => some []
  | [c] => if isBlank c then some [] else none
  | c :: d :: rest =>
    if isBlank c then fromHex (d :: rest)
    else
      match hexValue c, hexValue d with
      | some hi, some lo => (fromHex rest).map fun b => UInt8.ofNat (hi * 16 + lo) :: b
      | _, _ => none

theorem decodeReplace_encodeAscii {text : PyStr} {data : Bytes} (h : encodeAscii text = some data) :
    decodeReplace data = text := by
  unfold encodeAscii at h
  split at h
  · next hascii =>
    obtain rfl := Option.some.inj h
    rw [decodeReplace, List.map_map]
    refine (List.map_congr_left fun c hc => ?_).trans (List.map_id text)
    have hlt := hascii c hc
    have hbyte : (UInt8.ofNat c).toNat = c := UInt8.toNat_ofNat_of_lt' (hlt.trans (by decide))
    rw [Function.comp_apply, if_pos (UInt8.lt_iff_toNat_lt.mpr (hbyte.symm ▸ hlt)), hbyte]
    rfl
  · cases h

theorem encodeAscii_of_ascii {text : PyStr} (h : ∀ c ∈ text, c < 128) :
    encodeAscii text = some (text.map UInt8.ofNat) := if_pos h

theorem mem_join {sep : PyStr} {lines : List PyStr} {c : ℕ} (h : c ∈ sep.intercalate lines) :
    c ∈ sep ∨ ∃ line ∈ lines, c ∈ line := by
  induction lines with
  | nil => cases h
  | cons line rest ih =>
    cases rest with
    | nil =>
      rw [List.intercalate_singleton] at h
      exact Or.inr ⟨line, List.mem_cons_self, h⟩
    | cons next rest =>
      rw [List.intercalate_cons_cons] at h
      rcases List.mem_append.mp h with h | h
      · rcases List.mem_append.mp h with h | h
        · exact Or.inr ⟨line, List.mem_cons_self, h⟩
        · exact Or.inl h
      · rcases ih h with hsep | ⟨other, hmem, hc⟩
        · exact Or.inl hsep
        · exact Or.inr ⟨other, List.mem_cons_of_mem line hmem, hc⟩

theorem replaceCrLf_append {line rest : PyStr} (h : 13 ∉ line) :
    replaceCrLf (line ++ rest) = line ++ replaceCrLf rest := by
  induction line with
  | nil => rfl
  | cons c line ih =>
    have hc : c ≠ 13 := fun heq => h (heq ▸ List.mem_cons_self)
    rw [List.cons_append, replaceCrLf, ih fun hmem => h (List.mem_cons_of_mem c hmem)]
    · rfl
    · intro tail heq
      exact absurd heq hc

theorem replaceCr_of_not_mem {line : PyStr} (h : 13 ∉ line) : replaceCr line = line := by
  refine (List.map_congr_left fun c hc => ?_).trans (List.map_id line)
  refine if_neg ?_
  rintro rfl
  exact h hc

theorem splitLines_join {lines : List PyStr} (hne : lines ≠ [])
    (h : ∀ line ∈ lines, 10 ∉ line ∧ 13 ∉ line) :
    splitLines ([13, 10].intercalate lines) = lines := by
  have hreplaced : replaceCr (replaceCrLf ([13, 10].intercalate lines)) = [10].intercalate lines := by
    induction lines with
    | nil => rfl
    | cons line rest ih =>
      have hline := (h line List.mem_cons_self).2
      cases rest with
      | nil =>
        have hwhole : replaceCrLf (line ++ []) = line ++ replaceCrLf [] := replaceCrLf_append hline
        rw [List.append_nil] at hwhole
        rw [List.intercalate_singleton, List.intercalate_singleton, hwhole, replaceCrLf,
          List.append_nil, replaceCr_of_not_mem hline]
      | cons next rest =>
        have hrest := ih (List.cons_ne_nil _ _) fun l hl => h l (List.mem_cons_of_mem line hl)
        rw [List.intercalate_cons_cons, List.intercalate_cons_cons, List.append_assoc,
          replaceCrLf_append hline, replaceCr, List.map_append, ← replaceCr,
          replaceCr_of_not_mem hline, List.append_assoc]
        exact congrArg (fun text => line ++ 10 :: text) hrest
  rw [splitLines, hreplaced]
  exact List.splitOn_intercalate 10 (fun line hline => (h line hline).1) hne

theorem splitColon_header {key value : PyStr} (h : 58 ∉ key) :
    splitColon (key ++ 58 :: value) = some (key, value) := by
  have hkey : ∀ c ∈ key, decide (c ≠ 58) = true := by
    intro c hc
    exact decide_eq_true fun heq => h (heq ▸ hc)
  rw [splitColon, List.dropWhile_append_of_pos hkey, List.takeWhile_append_of_pos hkey,
    List.dropWhile_cons_of_neg (by simp), List.takeWhile_cons_of_neg (by simp), List.append_nil]

theorem strip_of_no_space {text : PyStr} (h : ∀ c ∈ text, isSpace c = false) : strip text = text := by
  have hfront : text.dropWhile isSpace = text := by
    cases text with
    | nil => rfl
    | cons c rest => exact List.dropWhile_cons_of_neg (by simp [h c List.mem_cons_self])
  rw [strip, hfront, List.rdropWhile_eq_self_iff]
  intro hne hspace
  cases (h _ (List.getLast_mem hne)).symm.trans hspace

theorem strip_cons_space {text : PyStr} : strip (32 :: text) = strip text := rfl

theorem fromHex_digits {digit : ℕ → ℕ}
    (h : ∀ n < 16, hexValue (digit n) = some n ∧ isBlank (digit n) = false) (b : Bytes) :
    fromHex (b.flatMap fun x => [digit (x.toNat / 16), digit (x.toNat % 16)]) = some b := by
  induction b with
  | nil => rfl
  | cons x b ih =>
    have hx := x.toNat_lt
    obtain ⟨hhigh, hblank⟩ := h (x.toNat / 16) (by omega)
    obtain ⟨hlow, -⟩ := h (x.toNat % 16) (by omega)
    rw [List.flatMap_cons, List.cons_append, List.cons_append, List.nil_append, fromHex, hblank,
      if_neg Bool.false_ne_true, hhigh, hlow, ih]
    have hbyte : x.toNat / 16 * 16 + x.toNat % 16 = x.toNat := by omega
    simp only [Option.map_some, hbyte, UInt8.ofNat_toNat]

end AsciiText
