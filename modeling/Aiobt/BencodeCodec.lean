import Aiobt.PyDecimal

/-! # Bencode encoding and decoding

The pure-Python module `bencode.py`. Positions are indices into the whole buffer, as in the
source. `maxDigits` is the interpreter's limit on integer text and `depth` what is left of its
recursion limit, counted in nested calls of `_decode_any`. The fragments that the encoder appends to
`parts` are concatenated where they are produced. -/
namespace BencodeCodec

open ByteStrings PyDecimal

inductive BencodeValue where
  | int (value : ℤ)
  | bytes (value : Bytes)
  | list (items : List BencodeValue)
  | dict (items : List (Bytes × BencodeValue))
  deriving Repr, BEq

def chrI : UInt8 := 105
def chrL : UInt8 := 108
def chrD : UInt8 := 100
def chrE : UInt8 := 101
def chrColon : UInt8 := 58

inductive DecodeError where
  | emptyData
  | trailingData (pos : ℤ)
  | unexpectedEnd (pos : ℤ)
  | unexpectedByte (lead : UInt8) (pos : ℤ)
  | emptyInteger
  | negativeZero
  | leadingZeroInteger (raw : Bytes)
  | leadingZeroNegative (raw : Bytes)
  | invalidInteger (raw : Bytes)
  | leadingZeroLength (raw : Bytes)
  | invalidLength (raw : Bytes)
  | pastEnd (length start bufLen : ℤ)
  | unterminatedList
  | unterminatedDict
  | keyNotBytes (b : UInt8) (pos : ℤ)
  | keysOutOfOrder (prevKey key : Bytes)
  | byteNotFound (byte : UInt8) (start : ℤ)
  deriving DecidableEq, Repr

inductive PyError where
  | decodeError (reason : DecodeError)
  /-- `str()` of an integer with too many digits. -/
  | valueError
  | recursionError
  /-- A loop of the model ran out of iterations; no input leads here. -/
  | stuck
  deriving DecidableEq, Repr

abbrev Outcome (α : Type) := Except PyError α

def raiseDecode {α : Type} (reason : DecodeError) : Outcome α := .error (.decodeError reason)

def findByte (buf : Bytes) (byte : UInt8) (start : ℕ) : Outcome ℕ :=
  match (buf.drop start).findIdx? (· == byte) with
  | some i => .ok (start + i)
  | none => raiseDecode (.byteNotFound byte start)

def decodeInt (maxDigits : ℕ) (buf : Bytes) (pos : ℕ) : Outcome (ℤ × ℕ) := do
  let pos := pos + 1
  let stop ← findByte buf chrE pos
  let raw := slice buf pos stop
  if raw = [] then raiseDecode .emptyInteger
  else if raw = [45, 48] then raiseDecode .negativeZero
  else if 1 < raw.length ∧ raw.take 1 = [48] then raiseDecode (.leadingZeroInteger raw)
  else if 1 < raw.length ∧ raw.take 2 = [45, 48] then raiseDecode (.leadingZeroNegative raw)
  else match pyInt maxDigits raw with
    | some value => .ok (value, stop + 1)
    | none => raiseDecode (.invalidInteger raw)

/-- The callers have seen a digit at `pos`, so `length` is not negative (`pyInt_nonneg`). -/
def decodeBytes (maxDigits : ℕ) (buf : Bytes) (pos : ℕ) : Outcome (Bytes × ℕ) := do
  let colon ← findByte buf chrColon pos
  let rawLen := slice buf pos colon
  if 1 < rawLen.length ∧ rawLen.take 1 = [48] then raiseDecode (.leadingZeroLength rawLen)
  else match pyInt maxDigits rawLen with
    | none => raiseDecode (.invalidLength rawLen)
    | some length =>
      let start := colon + 1
      let stop := start + length
      if stop > buf.length then raiseDecode (.pastEnd length start buf.length)
      else .ok (slice buf start stop.toNat, stop.toNat)

def decodeListLoop (item : ℕ → Outcome (BencodeValue × ℕ)) (buf : Bytes) :
    ℕ → ℕ → List BencodeValue → Outcome (List BencodeValue × ℕ)
  | 0, _, _ => .error .stuck
  | fuel + 1, pos, items =>
    match buf[pos]? with
    | none => raiseDecode .unterminatedList
    | some b =>
      if b = chrE then .ok (items, pos + 1)
      else do
        let (value, pos) ← item pos
        decodeListLoop item buf fuel pos (items ++ [value])

def decodeList (item : ℕ → Outcome (BencodeValue × ℕ)) (buf : Bytes) (pos : ℕ) :
    Outcome (List BencodeValue × ℕ) :=
  decodeListLoop item buf (buf.length + 1) (pos + 1) []

/-- `result[key] = value` on a `dict` in insertion order. -/
def setItem (result : List (Bytes × BencodeValue)) (key : Bytes) (value : BencodeValue) :
    List (Bytes × BencodeValue) :=
  if result.any (fun e => e.1 == key) then
    result.map fun e => if e.1 = key then (key, value) else e
  else result ++ [(key, value)]

def decodeDictLoop (maxDigits : ℕ) (item : ℕ → Outcome (BencodeValue × ℕ)) (buf : Bytes) :
    ℕ → ℕ → Option Bytes → List (Bytes × BencodeValue) →
      Outcome (List (Bytes × BencodeValue) × ℕ)
  | 0, _, _, _ => .error .stuck
  | fuel + 1, pos, prevKey, result =>
    match buf[pos]? with
    | none => raiseDecode .unterminatedDict
    | some b =>
      if b = chrE then .ok (result, pos + 1)
      else if isDigit b = false then raiseDecode (.keyNotBytes b pos)
      else do
        let (key, pos) ← decodeBytes maxDigits buf pos
        match prevKey with
        | some prev =>
          if key ≤ prev then raiseDecode (.keysOutOfOrder prev key)
          else do
            let (value, pos) ← item pos
            decodeDictLoop maxDigits item buf fuel pos (some key) (setItem result key value)
        | none => do
          let (value, pos) ← item pos
          decodeDictLoop maxDigits item buf fuel pos (some key) (setItem result key value)

def decodeDict (maxDigits : ℕ) (item : ℕ → Outcome (BencodeValue × ℕ)) (buf : Bytes) (pos : ℕ) :
    Outcome (List (Bytes × BencodeValue) × ℕ) :=
  decodeDictLoop maxDigits item buf (buf.length + 1) (pos + 1) none []

def decodeAny (maxDigits : ℕ) (buf : Bytes) : ℕ → ℕ → Outcome (BencodeValue × ℕ)
  | 0, _ => .error .recursionError
  | depth + 1, pos =>
    match buf[pos]? with
    | none => raiseDecode (.unexpectedEnd pos)
    | some lead =>
      if lead = chrI then (decodeInt maxDigits buf pos).map fun r => (.int r.1, r.2)
      else if lead = chrL then
        (decodeList (decodeAny maxDigits buf depth) buf pos).map fun r => (.list r.1, r.2)
      else if lead = chrD then
        (decodeDict maxDigits (decodeAny maxDigits buf depth) buf pos).map fun r => (.dict r.1, r.2)
      else if isDigit lead then
        (decodeBytes maxDigits buf pos).map fun r => (.bytes r.1, r.2)
      else raiseDecode (.unexpectedByte lead pos)

def decode (maxDigits depth : ℕ) (data : Bytes) : Outcome BencodeValue :=
  if data = [] then raiseDecode .emptyData
  else do
    let (value, pos) ← decodeAny maxDigits data depth 0
    if pos ≠ data.length then raiseDecode (.trailingData pos) else .ok value

def decodeAllLoop (maxDigits depth : ℕ) (buf : Bytes) :
    ℕ → ℕ → List BencodeValue → Outcome (List BencodeValue)
  | 0, _, _ => .error .stuck
  | fuel + 1, pos, values =>
    if pos < buf.length then do
      let (value, pos) ← decodeAny maxDigits buf depth pos
      decodeAllLoop maxDigits depth buf fuel pos (values ++ [value])
    else .ok values

def decodeAll (maxDigits depth : ℕ) (data : Bytes) : Outcome (List BencodeValue) :=
  decodeAllLoop maxDigits depth data (data.length + 1) 0 []

def strInt (maxDigits : ℕ) (value : ℤ) : Outcome Bytes :=
  if WithinLimit maxDigits (digitCount value) then .ok (intText value) else .error .valueError

def encodeInt (maxDigits : ℕ) (value : ℤ) : Outcome Bytes := do
  let text ← strInt maxDigits value
  .ok (chrI :: text ++ [chrE])

def encodeBytes (maxDigits : ℕ) (value : Bytes) : Outcome Bytes := do
  let text ← strInt maxDigits value.length
  .ok (text ++ chrColon :: value)

/-- The loop of `_encode_dict` over the sorted keys, with the values already encoded. -/
def encodeItems (maxDigits : ℕ) : List (Bytes × Bytes) → Outcome Bytes
  | [] => .ok []
  | (key, value) :: rest => do
    let text ← encodeBytes maxDigits key
    let texts ← encodeItems maxDigits rest
    .ok (text ++ (value ++ texts))

mutual

def encodeAny (maxDigits : ℕ) : BencodeValue → Outcome Bytes
  | .int value => encodeInt maxDigits value
  | .bytes value => encodeBytes maxDigits value
  | .list items => do
    let body ← encodeList maxDigits items
    .ok (chrL :: body ++ [chrE])
  | .dict items => do
    let encoded ← encodeValues maxDigits items
    let body ← encodeItems maxDigits (sortedItems encoded)
    .ok (chrD :: body ++ [chrE])

def encodeList (maxDigits : ℕ) : List BencodeValue → Outcome Bytes
  | [] => .ok []
  | item :: rest => do
    let text ← encodeAny maxDigits item
    let texts ← encodeList maxDigits rest
    .ok (text ++ texts)

def encodeValues (maxDigits : ℕ) : List (Bytes × BencodeValue) → Outcome (List (Bytes × Bytes))
  | [] => .ok []
  | (key, value) :: rest => do
    let text ← encodeAny maxDigits value
    let texts ← encodeValues maxDigits rest
    .ok ((key, text) :: texts)

end

def encode (maxDigits : ℕ) (value : BencodeValue) : Outcome Bytes := encodeAny maxDigits value

example : decode 4300 10 [100, 49, 58, 97, 105, 45, 53, 101, 101] =
    .ok (.dict [([97], .int (-5))]) := rfl

end BencodeCodec
