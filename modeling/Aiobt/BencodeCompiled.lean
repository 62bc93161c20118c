import Aiobt.BencodeGrammar
import Aiobt.MachineIntegers

/-! # The compiled bencode decoder

The Cython module `bencode.pyx`. Positions are `Py_ssize_t`, so sums wrap around; a Python
integer that does not fit raises `OverflowError` when it is stored in one. `readByte` is
`buf[i]` without bounds check and wraparound: the model stops where the index is outside. The
`cdef` functions call each other as C functions do, so the recursion limit does not hold them; each
nested call has taken a byte, and the calls that the model allows do not run out. -/
namespace BencodeCompiled

open ByteStrings PyDecimal MachineIntegers
open BencodeCodec (BencodeValue DecodeError PyError Outcome chrI chrL chrD chrE chrColon setItem)
open BencodeGrammar

inductive Failure where
  | raised (error : PyError)
  | overflowError
  | outOfBounds (i : ℤ)
  deriving DecidableEq, Repr

abbrev COutcome (α : Type) := Except Failure α

def raiseDecode {α : Type} (reason : DecodeError) : COutcome α :=
  .error (.raised (.decodeError reason))

def readByte (buf : Bytes) (i : ℤ) : COutcome UInt8 :=
  if 0 ≤ i then
    match buf[i.toNat]? with
    | some b => .ok b
    | none => .error (.outOfBounds i)
  else .error (.outOfBounds i)

/-- The loop of `_find_byte` with `n` iterations left. -/
def scan (buf : Bytes) (byte : UInt8) (start : ℤ) : ℕ → ℤ → COutcome ℤ
  | 0, _ => raiseDecode (.byteNotFound byte start)
  | n + 1, i => do
    let b ← readByte buf i
    if b = byte then .ok i else scan buf byte start n (ssize (i + 1))

def findByte (buf : Bytes) (bufLen : ℤ) (byte : UInt8) (start : ℤ) : COutcome ℤ :=
  scan buf byte start (bufLen - start).toNat start

def decodeInt (maxDigits : ℕ) (buf : Bytes) (bufLen pos : ℤ) : COutcome (ℤ × ℤ) := do
  let pos := ssize (pos + 1)
  let stop ← findByte buf bufLen chrE pos
  let raw := pySlice buf pos stop
  if raw = [] then raiseDecode .emptyInteger
  else if raw = [45, 48] then raiseDecode .negativeZero
  else if 1 < raw.length ∧ raw.take 1 = [48] then raiseDecode (.leadingZeroInteger raw)
  else if 1 < raw.length ∧ raw.take 2 = [45, 48] then raiseDecode (.leadingZeroNegative raw)
  else match pyInt maxDigits raw with
    | some value => .ok (value, ssize (stop + 1))
    | none => raiseDecode (.invalidInteger raw)

def decodeBytes (maxDigits : ℕ) (buf : Bytes) (bufLen pos : ℤ) : COutcome (Bytes × ℤ) := do
  let colon ← findByte buf bufLen chrColon pos
  let rawLen := pySlice buf pos colon
  if 1 < rawLen.length ∧ rawLen.take 1 = [48] then raiseDecode (.leadingZeroLength rawLen)
  else match pyInt maxDigits rawLen with
    | none => raiseDecode (.invalidLength rawLen)
    | some length =>
      if ¬ Fits ssizeHalf length then .error .overflowError
      else
        let start := ssize (colon + 1)
        let stop := ssize (start + length)
        if stop > bufLen then raiseDecode (.pastEnd length start bufLen)
        else .ok (pySlice buf start stop, stop)

def decodeListLoop (item : ℤ → COutcome (BencodeValue × ℤ)) (buf : Bytes) (bufLen : ℤ) :
    ℕ → ℤ → List BencodeValue → COutcome (List BencodeValue × ℤ)
  | 0, _, _ => .error (.raised .stuck)
  | fuel + 1, pos, items =>
    if pos ≥ bufLen then raiseDecode .unterminatedList
    else do
      let b ← readByte buf pos
      if b = chrE then .ok (items, ssize (pos + 1))
      else do
        let (value, pos) ← item pos
        decodeListLoop item buf bufLen fuel pos (items ++ [value])

def decodeList (item : ℤ → COutcome (BencodeValue × ℤ)) (buf : Bytes) (bufLen pos : ℤ) :
    COutcome (List BencodeValue × ℤ) :=
  decodeListLoop item buf bufLen (buf.length + 1) (ssize (pos + 1)) []

def decodeDictLoop (maxDigits : ℕ) (item : ℤ → COutcome (BencodeValue × ℤ)) (buf : Bytes)
    (bufLen : ℤ) : ℕ → ℤ → Option Bytes → List (Bytes × BencodeValue) →
      COutcome (List (Bytes × BencodeValue) × ℤ)
  | 0, _, _, _ => .error (.raised .stuck)
  | fuel + 1, pos, prevKey, result =>
    if pos ≥ bufLen then raiseDecode .unterminatedDict
    else do
      let b ← readByte buf pos
      if b = chrE then .ok (result, ssize (pos + 1))
      else if isDigit b = false then raiseDecode (.keyNotBytes b pos)
      else do
        let (key, pos) ← decodeBytes maxDigits buf bufLen pos
        match prevKey with
        | some prev =>
          if key ≤ prev then raiseDecode (.keysOutOfOrder prev key)
          else do
            let (value, pos) ← item pos
            decodeDictLoop maxDigits item buf bufLen fuel pos (some key) (setItem result key value)
        | none => do
          let (value, pos) ← item pos
          decodeDictLoop maxDigits item buf bufLen fuel pos (some key) (setItem result key value)

def decodeDict (maxDigits : ℕ) (item : ℤ → COutcome (BencodeValue × ℤ)) (buf : Bytes)
    (bufLen pos : ℤ) : COutcome (List (Bytes × BencodeValue) × ℤ) :=
  decodeDictLoop maxDigits item buf bufLen (buf.length + 1) (ssize (pos + 1)) none []

def decodeAny (maxDigits : ℕ) (buf : Bytes) (bufLen : ℤ) : ℕ → ℤ → COutcome (BencodeValue × ℤ)
  | 0, _ => .error (.raised .stuck)
  | calls + 1, pos =>
    if pos ≥ bufLen then raiseDecode (.unexpectedEnd pos)
    else do
      let lead ← readByte buf pos
      if lead = chrI then
        (decodeInt maxDigits buf bufLen pos).map fun r => (.int r.1, r.2)
      else if lead = chrL then
        (decodeList (decodeAny maxDigits buf bufLen calls) buf bufLen pos).map fun r =>
          (.list r.1, r.2)
      else if lead = chrD then
        (decodeDict maxDigits (decodeAny maxDigits buf bufLen calls) buf bufLen pos).map fun r =>
          (.dict r.1, r.2)
      else if isDigit lead then
        (decodeBytes maxDigits buf bufLen pos).map fun r => (.bytes r.1, r.2)
      else raiseDecode (.unexpectedByte lead pos)

def decode (maxDigits : ℕ) (data : Bytes) : COutcome BencodeValue :=
  if data = [] then raiseDecode .emptyData
  else do
    let (value, pos) ← decodeAny maxDigits data data.length (data.length + 1) 0
    if pos ≠ data.length then raiseDecode (.trailingData pos) else .ok value

def decodeAllLoop (maxDigits calls : ℕ) (buf : Bytes) (bufLen : ℤ) :
    ℕ → ℤ → List BencodeValue → COutcome (List BencodeValue)
  | 0, _, _ => .error (.raised .stuck)
  | fuel + 1, pos, values =>
    if pos < bufLen then do
      let (value, pos) ← decodeAny maxDigits buf bufLen calls pos
      decodeAllLoop maxDigits calls buf bufLen fuel pos (values ++ [value])
    else .ok values

def decodeAll (maxDigits : ℕ) (data : Bytes) : COutcome (List BencodeValue) :=
  decodeAllLoop maxDigits (data.length + 1) data data.length (data.length + 1) 0 []

/-- The outcome of the pure decoder, as the compiled one represents it. -/
def lift {α : Type} : Outcome (α × ℕ) → COutcome (α × ℤ)
  | .ok (a, q) => .ok (a, (q : ℤ))
  | .error e => .error (.raised e)

@[simp] theorem lift_ok {α : Type} (a : α) (q : ℕ) :
    lift (.ok (a, q) : Outcome (α × ℕ)) = .ok (a, (q : ℤ)) := rfl
@[simp] theorem lift_error {α : Type} (e : PyError) :
    lift (.error e : Outcome (α × ℕ)) = .error (.raised e) := rfl
@[simp] theorem lift_raise {α : Type} (e : DecodeError) :
    lift (BencodeCodec.raiseDecode e : Outcome (α × ℕ)) = raiseDecode e := rfl

theorem lift_map {α β : Type} (f : α → β) (o : Outcome (α × ℕ)) :
    lift (o.map fun r => (f r.1, r.2)) = (lift o).map fun r => (f r.1, r.2) := by
  cases o with
  | error e => rfl
  | ok r => rfl

theorem readByte_nat {buf : Bytes} {pos : ℕ} {b : UInt8} (h : buf[pos]? = some b) :
    readByte buf pos = .ok b := by
  simp [readByte, h]

theorem readByte_neg {buf : Bytes} {i : ℤ} (h : i < 0) : readByte buf i = .error (.outOfBounds i) := by
  rw [readByte, if_neg (by omega)]

theorem ssize_succ {n pos : ℕ} (hlen : n < 2 ^ 63) (h : pos < n) :
    ssize ((pos : ℤ) + 1) = ((pos + 1 : ℕ) : ℤ) := by
  rw [ssize_of_fits (by omega) (by omega)]
  omega

section
variable {maxDigits : ℕ} {buf : Bytes}

theorem scan_eq (hlen : buf.length < 2 ^ 63) (byte : UInt8) (start : ℤ) {n pos : ℕ}
    (h : pos + n = buf.length) :
    scan buf byte start n pos =
      match (buf.drop pos).findIdx? (· == byte) with
      | some k => .ok ((pos + k : ℕ) : ℤ)
      | none => raiseDecode (.byteNotFound byte start) := by
  induction n generalizing pos with
  | zero =>
    have hd : buf.drop pos = [] := List.drop_eq_nil_iff.mpr (by omega)
    rw [hd]
    rfl
  | succ n ih =>
    have hlt : pos < buf.length := by omega
    have hb : buf[pos]? = some buf[pos] := List.getElem?_eq_getElem hlt
    rw [drop_of_getElem? hb, List.findIdx?_cons, scan, readByte_nat hb]
    simp only [bind, Except.bind]
    by_cases heq : buf[pos] = byte
    · simp [heq]
    · have hne : (buf[pos] == byte) = false := by simpa using heq
      rw [if_neg heq, hne, ssize_succ hlen hlt, ih (by omega)]
      cases (buf.drop (pos + 1)).findIdx? (· == byte) with
      | none => rfl
      | some k =>
        simp only [Option.map_some, Bool.false_eq_true, if_false]
        congr 2
        omega

theorem findByte_lift (hlen : buf.length < 2 ^ 63) {byte : UInt8} {pos : ℕ}
    (h : pos ≤ buf.length) :
    findByte buf buf.length byte pos =
      match BencodeCodec.findByte buf byte pos with
      | .ok i => .ok (i : ℤ)
      | .error e => .error (.raised e) := by
  have hn : ((buf.length : ℤ) - (pos : ℤ)).toNat = buf.length - pos := by omega
  rw [findByte, hn, scan_eq hlen byte pos (by omega), BencodeCodec.findByte]
  cases (buf.drop pos).findIdx? (· == byte) with
  | none => rfl
  | some k => rfl

theorem decodeInt_lift (hlen : buf.length < 2 ^ 63) {pos : ℕ} (h : pos < buf.length) :
    decodeInt maxDigits buf buf.length pos = lift (BencodeCodec.decodeInt maxDigits buf pos) := by
  simp only [decodeInt, BencodeCodec.decodeInt, ssize_succ hlen h,
    findByte_lift hlen (show pos + 1 ≤ buf.length from h)]
  cases hf : BencodeCodec.findByte buf chrE (pos + 1) with
  | error e => rfl
  | ok i =>
    obtain ⟨raw, t, hd, hn, rfl⟩ := findByte_ok hf
    have hl := length_of_drop hd h
    simp only [List.length_cons] at hl
    simp only [bind, Except.bind, pySlice_nat (show pos + 1 ≤ buf.length from h)
      (show pos + 1 + raw.length ≤ buf.length by omega), slice_of_drop hd,
      ssize_succ hlen (show pos + 1 + raw.length < buf.length by omega)]
    split
    · rfl
    · split
      · rfl
      · split
        · rfl
        · split
          · rfl
          · cases pyInt maxDigits raw with
            | none => rfl
            | some value => rfl

/-- One pass of the loop of `_decode_dict` behind the end check, for any previous key. -/
theorem decodeDictLoop_key {item : ℤ → COutcome (BencodeValue × ℤ)} {fuel pos : ℕ}
    {prev : Option Bytes} {result : List (Bytes × BencodeValue)} {b : UInt8}
    (hb : buf[pos]? = some b) (he : b ≠ chrE) (hdig : isDigit b = true) :
    decodeDictLoop maxDigits item buf buf.length (fuel + 1) pos prev result =
      (decodeBytes maxDigits buf buf.length pos).bind fun r =>
        match prev.filter (fun p => decide (r.1 ≤ p)) with
        | some p => raiseDecode (.keysOutOfOrder p r.1)
        | none => (item r.2).bind fun s =>
          decodeDictLoop maxDigits item buf buf.length fuel s.2 (some r.1)
            (setItem result r.1 s.1) := by
  have hlt : pos < buf.length := (List.getElem?_eq_some_iff.mp hb).1
  rw [decodeDictLoop, if_neg (by omega), readByte_nat hb]
  simp only [if_neg he, hdig, bind, Except.bind, Bool.true_eq_false, if_false]
  cases decodeBytes maxDigits buf buf.length pos with
  | error f => rfl
  | ok r =>
    cases prev with
    | none => rfl
    | some p =>
      by_cases hle : r.1 ≤ p
      · simp [hle, Option.filter]
      · simp [hle, Option.filter]

theorem decodeAny_list {depth pos : ℕ} {b : UInt8} (hb : buf[pos]? = some b) (hl : b = chrL) :
    decodeAny maxDigits buf buf.length (depth + 1) pos =
      (decodeList (decodeAny maxDigits buf buf.length depth) buf buf.length pos).map fun r =>
        (.list r.1, r.2) := by
  have hlt : pos < buf.length := (List.getElem?_eq_some_iff.mp hb).1
  rw [decodeAny, if_neg (by omega), readByte_nat hb]
  simp only [bind, Except.bind]
  rw [if_neg (by rw [hl]; decide), if_pos hl]

theorem decodeAny_dict {depth pos : ℕ} {b : UInt8} (hb : buf[pos]? = some b) (hd : b = chrD) :
    decodeAny maxDigits buf buf.length (depth + 1) pos =
      (decodeDict maxDigits (decodeAny maxDigits buf buf.length depth) buf buf.length pos).map
        fun r => (.dict r.1, r.2) := by
  have hlt : pos < buf.length := (List.getElem?_eq_some_iff.mp hb).1
  rw [decodeAny, if_neg (by omega), readByte_nat hb]
  simp only [bind, Except.bind]
  rw [if_neg (by rw [hd]; decide), if_neg (by rw [hd]; decide), if_pos hd]

theorem decodeAny_bytes {depth pos : ℕ} {b : UInt8} (hb : buf[pos]? = some b)
    (hdig : isDigit b = true) :
    decodeAny maxDigits buf buf.length (depth + 1) pos =
      (decodeBytes maxDigits buf buf.length pos).map fun r => (.bytes r.1, r.2) := by
  have hlt : pos < buf.length := (List.getElem?_eq_some_iff.mp hb).1
  obtain ⟨-, hi, hl, hd⟩ := digit_ne hdig
  rw [decodeAny, if_neg (by omega), readByte_nat hb]
  simp only [bind, Except.bind]
  rw [if_neg hi, if_neg hl, if_neg hd, if_pos hdig]

/-- A length prefix at `pos` with which `start + length` leaves the range of `Py_ssize_t`. -/
def OverflowAt (maxDigits : ℕ) (s : Bytes) (pos : ℕ) (length : ℤ) : Prop :=
  ∃ raw t, s.drop pos = raw ++ chrColon :: t ∧ LengthText maxDigits raw length ∧
    2 ^ 63 ≤ (pos + raw.length + 1 : ℕ) + length

/-- When the addition of the length overflows, the string read raises `OverflowError`, or is empty
and ends at a negative position. -/
theorem decodeBytes_overflow (hlen : buf.length < 2 ^ 63) {pos : ℕ} (hpos : pos ≤ buf.length)
    {length : ℤ} (hover : OverflowAt maxDigits buf pos length) :
    (2 ^ 63 ≤ length ∧ decodeBytes maxDigits buf buf.length pos = .error .overflowError) ∨
    (length < 2 ^ 63 ∧ ∃ q, q < 0 ∧ decodeBytes maxDigits buf buf.length pos = .ok ([], q)) := by
  obtain ⟨raw, t, hd, htext, hbig⟩ := hover
  have hl := length_of_drop hd hpos
  simp only [List.length_cons] at hl
  have hcolon : pos + raw.length < buf.length := by omega
  simp only [decodeBytes, findByte_lift hlen hpos, findByte_of_drop hd htext.no_colon, bind,
    Except.bind, pySlice_nat hpos hcolon.le, slice_of_drop hd, if_neg htext.no_leading_zero,
    htext.value_eq, ssize_succ hlen hcolon]
  by_cases hfits : 2 ^ 63 ≤ length
  · left
    refine ⟨hfits, if_pos ?_⟩
    rintro ⟨-, hfit⟩
    exact absurd hfit (not_lt.mpr hfits)
  · right
    have h0 : Fits ssizeHalf length := ⟨by rw [ssizeHalf]; omega, by rw [ssizeHalf]; omega⟩
    have hwrap : ssize (((pos + raw.length + 1 : ℕ) : ℤ) + length) =
        ((pos + raw.length + 1 : ℕ) : ℤ) + length - 2 ^ 64 :=
      ssize_overflow hbig (by omega)
    have hempty : pySlice buf ((pos + raw.length + 1 : ℕ) : ℤ)
        (((pos + raw.length + 1 : ℕ) : ℤ) + length - 2 ^ 64) = [] := by
      apply List.eq_nil_of_length_eq_zero
      rw [pySlice, length_slice, sliceBound_nat hcolon, sliceBound, if_pos (by omega)]
      omega
    refine ⟨by omega, ((pos + raw.length + 1 : ℕ) : ℤ) + length - 2 ^ 64, by omega, ?_⟩
    rw [if_neg (not_not.mpr h0), hwrap, if_neg (by omega), hempty]

/-- At a digit the two string decoders agree, or the addition of the length overflows, and then
the pure decoder rejects. -/
theorem decodeBytes_cases (hlen : buf.length < 2 ^ 63) {pos : ℕ} {b : UInt8}
    (hb : buf[pos]? = some b) (hdig : isDigit b = true) :
    decodeBytes maxDigits buf buf.length pos = lift (BencodeCodec.decodeBytes maxDigits buf pos) ∨
    ∃ length e, OverflowAt maxDigits buf pos length ∧
      BencodeCodec.decodeBytes maxDigits buf pos = BencodeCodec.raiseDecode e := by
  have hpos : pos < buf.length := (List.getElem?_eq_some_iff.mp hb).1
  simp only [decodeBytes, BencodeCodec.decodeBytes, findByte_lift hlen hpos.le]
  cases hf : BencodeCodec.findByte buf chrColon pos with
  | error e => exact Or.inl rfl
  | ok i =>
    obtain ⟨raw, t, hd, hn, rfl⟩ := findByte_ok hf
    have hl := length_of_drop hd hpos.le
    simp only [List.length_cons] at hl
    have hcolon : pos + raw.length < buf.length := by omega
    simp only [bind, Except.bind, pySlice_nat hpos.le hcolon.le, slice_of_drop hd]
    by_cases hz : 1 < raw.length ∧ raw.take 1 = [48]
    · rw [if_pos hz, if_pos hz]
      exact Or.inl rfl
    · rw [if_neg hz, if_neg hz]
      cases hv : pyInt maxDigits raw with
      | none => exact Or.inl rfl
      | some length =>
        -- the text starts at a digit, so its value is not negative
        have hhead : ∃ rest, raw = b :: rest := by
          have hc := drop_of_getElem? hb
          rw [hd] at hc
          cases raw with
          | nil =>
            obtain rfl : chrColon = b := (List.cons.inj hc).1
            exact absurd hdig (by decide)
          | cons c rest => exact ⟨rest, by rw [(List.cons.inj hc).1]⟩
        obtain ⟨rest, hraw⟩ := hhead
        have h0 : 0 ≤ length := pyInt_nonneg hdig (hraw ▸ hv)
        by_cases hover : 2 ^ 63 ≤ ((pos + raw.length + 1 : ℕ) : ℤ) + length
        · exact Or.inr ⟨length, _, ⟨raw, t, hd, ⟨hn, ⟨b, rest, hraw, hdig⟩, hz, hv⟩, hover⟩,
            if_pos (by omega)⟩
        · left
          have hfit : Fits ssizeHalf length :=
            ⟨by rw [ssizeHalf]; omega, by rw [ssizeHalf]; omega⟩
          have hnowrap : ssize (((pos + raw.length + 1 : ℕ) : ℤ) + length) =
              ((pos + raw.length + 1 : ℕ) : ℤ) + length := ssize_of_fits (by omega) (by omega)
          simp only [if_neg (not_not.mpr hfit), ssize_succ hlen hcolon, hnowrap]
          by_cases hend : ((pos + raw.length + 1 : ℕ) : ℤ) + length > (buf.length : ℤ)
          · rw [if_pos hend, if_pos hend]
            rfl
          · rw [if_neg hend, if_neg hend]
            obtain ⟨n, rfl⟩ := Int.eq_ofNat_of_zero_le h0
            have hnat : ((pos + raw.length + 1 : ℕ) : ℤ) + (n : ℤ) =
                ((pos + raw.length + 1 + n : ℕ) : ℤ) := by omega
            rw [hnat, pySlice_nat hcolon (by omega), Int.toNat_natCast]
            rfl

end

end BencodeCompiled
