import Aiobt.PieceTracker

/-! # Peer messages

The messages of `protocol.py`, and the bitfields of `engine.py`. -/
namespace PeerMessages

open ByteStrings PieceTracker

inductive Message where
  | keepAlive
  | choke
  | unchoke
  | interested
  | notInterested
  | havePiece (index : ℕ)
  | bitfield (data : Bytes)
  | request (index begin length : ℕ)
  | piece (index begin : ℕ) (block : Bytes)
  | cancel (index begin length : ℕ)
  deriving DecidableEq, Repr

def hasPiece (data : Bytes) (index : ℕ) : Bool :=
  match data[index / 8]? with
  | none => false
  | some byte => byte.toNat.testBit (7 - index % 8)

def bitfieldToSet (data : Bytes) (pieceCount : ℤ) : Finset ℕ :=
  (Finset.range pieceCount.toNat).filter fun i => hasPiece data i

/-- The byte that the bits of eight neighbouring pieces make up. -/
def bitfieldByte (pieces : Finset ℕ) (k : ℕ) : UInt8 :=
  UInt8.ofNat ((List.range 8).map fun j => if 8 * k + j ∈ pieces then 2 ^ (7 - j) else 0).sum

/-- `build_bitfield`; `none` where `bytearray` refuses a size (it is negative, or not an index) or
a piece is outside of it. -/
def buildBitfield (t : Tracker) : Option Bytes :=
  let nbytes := (t.pieceCount + 7).fdiv 8
  if nbytes < 0 ∨ 2 ^ 63 ≤ nbytes ∨ ∃ i ∈ t.got, nbytes ≤ (i / 8 : ℕ) then none
  else some ((List.range nbytes.toNat).map (bitfieldByte t.got))

theorem mem_bitfieldToSet {data : Bytes} {pieceCount : ℤ} {i : ℕ} :
    i ∈ bitfieldToSet data pieceCount ↔ i < pieceCount.toNat ∧ hasPiece data i := by
  simp [bitfieldToSet]

end PeerMessages
