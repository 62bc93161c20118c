import Aiobt.ByteStrings

/-! # UTF-8 with surrogate escapes

`bytes.decode("utf-8", errors="surrogateescape")`. A string is the list of its code points. Each
byte that starts no well-formed UTF-8 sequence becomes the lone surrogate `0xDC00 + byte`. -/
namespace SurrogateUtf8

open ByteStrings

abbrev PyStr := List ℕ

def isTail (b : UInt8) : Bool := 0x80 ≤ b && b ≤ 0xBF

def tailBits (b : UInt8) : ℕ := b.toNat - 0x80

/-- Second bytes allowed after a three-byte lead: no overlong forms and no surrogates. -/
def secondOfThree (lead b : UInt8) : Bool :=
  isTail b && (lead != 0xE0 || 0xA0 ≤ b) && (lead != 0xED || b ≤ 0x9F)

/-- Second bytes allowed after a four-byte lead: no overlong forms, nothing past `0x10FFFF`. -/
def secondOfFour (lead b : UInt8) : Bool :=
  isTail b && (lead != 0xF0 || 0x90 ≤ b) && (lead != 0xF4 || b ≤ 0x8F)

/-- The code point at the front of the input and the number of further bytes it takes. -/
def codePoint (lead : UInt8) (rest : Bytes) : Option (ℕ × ℕ) :=
  if lead < 0x80 then some (lead.toNat, 0)
  else if 0xC2 ≤ lead && lead ≤ 0xDF then
    match rest with
    | b :: _ => if isTail b then some ((lead.toNat - 0xC0) * 64 + tailBits b, 1) else none
    | [] => none
  else if 0xE0 ≤ lead && lead ≤ 0xEF then
    match rest with
    | b :: c :: _ =>
      if secondOfThree lead b && isTail c then
        some (((lead.toNat - 0xE0) * 64 + tailBits b) * 64 + tailBits c, 2)
      else none
    | _ => none
  else if 0xF0 ≤ lead && lead ≤ 0xF4 then
    match rest with
    | b :: c :: d :: _ =>
      if secondOfFour lead b && isTail c && isTail d then
        some ((((lead.toNat - 0xF0) * 64 + tailBits b) * 64 + tailBits c) * 64 + tailBits d, 3)
      else none
    | _ => none
  else none

/-- `skip` counts the bytes that belong to the code point emitted last. -/
def decodeFrom : ℕ → Bytes → PyStr
  | _, [] => []
  | skip + 1, _ :: rest => decodeFrom skip rest
  | 0, lead :: rest =>
    match codePoint lead rest with
    | some (point, more) => point :: decodeFrom more rest
    | none => (0xDC00 + lead.toNat) :: decodeFrom 0 rest

def decodeUtf8 (data : Bytes) : PyStr := decodeFrom 0 data

/-- `é`, then a stray `0xFF`, then the euro sign. -/
example : decodeUtf8 [0xC3, 0xA9, 0xFF, 0xE2, 0x82, 0xAC] = [0xE9, 0xDCFF, 0x20AC] := by decide

end SurrogateUtf8
