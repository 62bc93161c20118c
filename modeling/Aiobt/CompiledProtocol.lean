import Aiobt.BencodeCompiled
import Aiobt.StructFormats
import Aiobt.WireFraming

/-! # The compiled wire protocol

`protocol.pyx` beside `protocol.py`. `data` is read at an offset where `protocol.py` cuts it, and
`has_piece` reads its buffer without bounds check. -/
namespace CompiledProtocol

open ByteStrings BtHandshake PeerMessages
open StructFormats (Field Value pack packField packField_nat)
open MachineIntegers (Fits ssizeHalf)
open BencodeCompiled (Failure COutcome readByte)
open WireFraming (MessageError word parseMessage encodeMessage)

inductive MessageValue where
  | keepAlive
  | choke
  | unchoke
  | interested
  | notInterested
  | havePiece (index : ℤ)
  | bitfield (data : Bytes)
  | request (index begin length : ℤ)
  | piece (index begin : ℤ) (block : Bytes)
  | cancel (index begin length : ℤ)
  deriving DecidableEq, Repr

def headerFormat (count : ℕ) : List Field :=
  .unsigned 4 :: .unsigned 1 :: List.replicate count (.unsigned 4)

/-- `to_bytes` of `protocol.py`; `none` stands for `struct.error`. -/
def toBytes : MessageValue → Option Bytes
  | .keepAlive => pack [.unsigned 4] [.int 0]
  | .choke => pack (headerFormat 0) [.int 1, .int 0]
  | .unchoke => pack (headerFormat 0) [.int 1, .int 1]
  | .interested => pack (headerFormat 0) [.int 1, .int 2]
  | .notInterested => pack (headerFormat 0) [.int 1, .int 3]
  | .havePiece index => pack (headerFormat 1) [.int 5, .int 4, .int index]
  | .bitfield data =>
    (pack (headerFormat 0) [.int (1 + data.length), .int 5]).map fun header => header ++ data
  | .request index begin length =>
    pack (headerFormat 3) [.int 13, .int 6, .int index, .int begin, .int length]
  | .piece index begin block =>
    (pack (headerFormat 2) [.int (9 + block.length), .int 7, .int index, .int begin]).map
      fun header => header ++ block
  | .cancel index begin length =>
    pack (headerFormat 3) [.int 13, .int 8, .int index, .int begin, .int length]

namespace Compiled

def keepaliveBytes : Bytes := (pack [.unsigned 4] [.int 0]).getD []
def chokeBytes : Bytes := (pack (headerFormat 0) [.int 1, .int 0]).getD []
def unchokeBytes : Bytes := (pack (headerFormat 0) [.int 1, .int 1]).getD []
def interestedBytes : Bytes := (pack (headerFormat 0) [.int 1, .int 2]).getD []
def notInterestedBytes : Bytes := (pack (headerFormat 0) [.int 1, .int 3]).getD []

def havePack : List Value → Option Bytes := pack (headerFormat 1)
def bitfieldPack : List Value → Option Bytes := pack (headerFormat 0)
def requestPack : List Value → Option Bytes := pack (headerFormat 3)
def piecePack : List Value → Option Bytes := pack (headerFormat 2)
def cancelPack : List Value → Option Bytes := pack (headerFormat 3)

def toBytes : MessageValue → Option Bytes
  | .keepAlive => some keepaliveBytes
  | .choke => some chokeBytes
  | .unchoke => some unchokeBytes
  | .interested => some interestedBytes
  | .notInterested => some notInterestedBytes
  | .havePiece index => havePack [.int 5, .int 4, .int index]
  | .bitfield data =>
    (bitfieldPack [.int (1 + data.length), .int 5]).map fun header => header ++ data
  | .request index begin length =>
    requestPack [.int 13, .int 6, .int index, .int begin, .int length]
  | .piece index begin block =>
    (piecePack [.int (9 + block.length), .int 7, .int index, .int begin]).map
      fun header => header ++ block
  | .cancel index begin length =>
    cancelPack [.int 13, .int 8, .int index, .int begin, .int length]

def handshakePrefix : Bytes := [19] ++ protocolString

def handshakeToBytes (h : Handshake) : Bytes :=
  handshakePrefix ++ h.reserved ++ h.infoHash ++ h.peerId

def handshakeFromBytes (data : Bytes) : Except HandshakeError Handshake :=
  if data.length < 68 then .error (.tooShort data.length)
  else if data.headD 0 ≠ 19 then .error (.unexpectedPstrlen (data.headD 0))
  else if slice data 1 20 ≠ protocolString then
    .error (.unexpectedProtocolString (slice data 1 20))
  else .ok { infoHash := slice data 28 48, peerId := slice data 48 68, reserved := slice data 20 28 }

def unpackFrom (count : ℕ) (data : Bytes) (offset : ℕ) (build : (ℕ → ℕ) → Message) :
    Except MessageError Message :=
  if data.length < offset + 4 * count then .error .structError
  else .ok (build (word (data.drop offset)))

def parseBody (msgId : ℕ) (data : Bytes) : Except MessageError Message :=
  if msgId = 0 then .ok .choke
  else if msgId = 1 then .ok .unchoke
  else if msgId = 2 then .ok .interested
  else if msgId = 3 then .ok .notInterested
  else if msgId = 4 then unpackFrom 1 data 1 fun field => .havePiece (field 0)
  else if msgId = 5 then .ok (.bitfield (data.drop 1))
  else if msgId = 6 then
    unpackFrom 3 data 1 fun field => .request (field 0) (field 1) (field 2)
  else if msgId = 7 then
    unpackFrom 2 data 1 fun field => .piece (field 0) (field 1) (data.drop 9)
  else if msgId = 8 then
    unpackFrom 3 data 1 fun field => .cancel (field 0) (field 1) (field 2)
  else .error (.unknownMessageId msgId)

def parseMessage (data : Bytes) : Except MessageError Message :=
  if data.length = 0 then .ok .keepAlive else parseBody (data.headD 0).toNat data

/-- `Bitfield.has_piece`: `byte_index` is a `Py_ssize_t`. -/
def hasPiece (data : Bytes) (index : ℕ) : COutcome Bool := do
  let byteIndex : ℤ := (index >>> 3 : ℕ)
  if ¬ Fits ssizeHalf byteIndex then .error .overflowError
  else if byteIndex ≥ data.length then .ok false
  else do
    let bitOffset := 7 - index % 8
    let byte ← readByte data byteIndex
    .ok ((byte.toNat >>> bitOffset) % 2 = 1)

end Compiled

def ofMessage : Message → MessageValue
  | .keepAlive => .keepAlive
  | .choke => .choke
  | .unchoke => .unchoke
  | .interested => .interested
  | .notInterested => .notInterested
  | .havePiece index => .havePiece index
  | .bitfield data => .bitfield data
  | .request index begin length => .request index begin length
  | .piece index begin block => .piece index begin block
  | .cancel index begin length => .cancel index begin length

theorem pack_words (ns : List ℕ) :
    pack (List.replicate ns.length (.unsigned 4)) (ns.map fun (n : ℕ) => .int n) =
      if ∀ n ∈ ns, n < 2 ^ 32 then some (ns.flatMap (BigEndian.toBytes 4)) else none := by
  induction ns with
  | nil => rfl
  | cons n ns ih =>
    rw [List.length_cons, List.replicate_succ, List.map_cons, pack, packField_nat, ih]
    by_cases hn : n < 256 ^ 4
    · by_cases hrest : ∀ k ∈ ns, k < 2 ^ 32
      · have hall : ∀ k ∈ n :: ns, k < 2 ^ 32 := List.forall_mem_cons.mpr ⟨hn, hrest⟩
        rw [if_pos hn, if_pos hrest, if_pos hall]
        rfl
      · have hall : ¬ ∀ k ∈ n :: ns, k < 2 ^ 32 := fun h => hrest (List.forall_mem_cons.mp h).2
        rw [if_pos hn, if_neg hrest, if_neg hall]
        rfl
    · have hall : ¬ ∀ k ∈ n :: ns, k < 2 ^ 32 := fun h => hn (List.forall_mem_cons.mp h).1
      rw [if_neg hn, if_neg hall]
      rfl

theorem pack_header (length : ℕ) (msgId : UInt8) (ns : List ℕ) :
    pack (headerFormat ns.length)
        (.int length :: .int (msgId.toNat : ℕ) :: ns.map fun (n : ℕ) => .int n) =
      (WireFraming.pack length msgId ns).toOption := by
  have hid : msgId.toNat < 256 ^ 1 := msgId.toNat_lt
  have hbyte : BigEndian.toBytes 1 msgId.toNat = [msgId] := by
    rw [BigEndian.toBytes, BigEndian.toBytes, Nat.mod_eq_of_lt msgId.toNat_lt, UInt8.ofNat_toNat]
    rfl
  rw [headerFormat, pack, pack, packField_nat, packField_nat, pack_words, if_pos hid, hbyte,
    WireFraming.pack]
  by_cases hlength : length < 256 ^ 4
  · by_cases hrest : ∀ n ∈ ns, n < 2 ^ 32
    · have hall : ∀ n ∈ length :: ns, n < 2 ^ 32 := List.forall_mem_cons.mpr ⟨hlength, hrest⟩
      rw [if_pos hlength, if_pos hrest, if_pos hall]
      rfl
    · have hall : ¬ ∀ n ∈ length :: ns, n < 2 ^ 32 := fun h => hrest (List.forall_mem_cons.mp h).2
      rw [if_pos hlength, if_neg hrest, if_neg hall]
      rfl
  · have hall : ¬ ∀ n ∈ length :: ns, n < 2 ^ 32 := fun h => hlength (List.forall_mem_cons.mp h).1
    rw [if_neg hlength, if_neg hall]
    rfl

theorem toOption_map {ε α β : Type} (f : α → β) (packed : Except ε α) :
    (packed.map f).toOption = packed.toOption.map f := by
  cases packed <;> rfl

/-- The messages of a connection are a case of those that a caller builds. -/
theorem toBytes_ofMessage (m : Message) : toBytes (ofMessage m) = (encodeMessage m).toOption := by
  cases m with
  | keepAlive => rfl
  | choke => exact pack_header 1 0 []
  | unchoke => exact pack_header 1 1 []
  | interested => exact pack_header 1 2 []
  | notInterested => exact pack_header 1 3 []
  | havePiece index => exact pack_header 5 4 [index]
  | bitfield data =>
    rw [encodeMessage, toOption_map, ← pack_header]
    rfl
  | request index begin length => exact pack_header 13 6 [index, begin, length]
  | piece index begin block =>
    rw [encodeMessage, toOption_map, ← pack_header]
    rfl
  | cancel index begin length => exact pack_header 13 8 [index, begin, length]

theorem toBytes_eq (m : MessageValue) : Compiled.toBytes m = toBytes m := by
  cases m with
  | keepAlive => rfl
  | choke => rfl
  | unchoke => rfl
  | interested => rfl
  | notInterested => rfl
  | havePiece index => rfl
  | bitfield data => rfl
  | request index begin length => rfl
  | piece index begin block => rfl
  | cancel index begin length => rfl

theorem word_take {count i : ℕ} (h : i < count) (b : Bytes) : word (b.take (4 * count)) i = word b i := by
  have hmin : min (4 * i + 4) (4 * count) = 4 * i + 4 := by omega
  rw [word, word, slice, slice, List.take_take, hmin]

/-- Reading at an offset gives the integers that are read from what is cut out there. -/
theorem unpackFrom_eq (count : ℕ) (msgId : UInt8) (payload : Bytes) (build : (ℕ → ℕ) → Message)
    (hbuild : ∀ f g : ℕ → ℕ, (∀ i < count, f i = g i) → build f = build g) :
    Compiled.unpackFrom count (msgId :: payload) 1 build =
      WireFraming.unpack count (payload.take (4 * count)) build := by
  rw [Compiled.unpackFrom, WireFraming.unpack, List.length_take, List.length_cons]
  by_cases hlong : 4 * count ≤ payload.length
  · rw [if_neg (by omega), if_pos (by omega)]
    exact congrArg Except.ok (hbuild _ _ fun i hi => (word_take hi payload).symm)
  · rw [if_pos (by omega), if_neg (by omega)]

theorem parseMessage_eq (data : Bytes) : Compiled.parseMessage data = parseMessage data := by
  cases data with
  | nil => rfl
  | cons msgId payload =>
    have h4 := unpackFrom_eq 1 msgId payload (fun field => .havePiece (field 0))
      fun f g h => by rw [h 0 (by decide)]
    have h6 := unpackFrom_eq 3 msgId payload
      (fun field => .request (field 0) (field 1) (field 2))
      fun f g h => by rw [h 0 (by decide), h 1 (by decide), h 2 (by decide)]
    have h7 := unpackFrom_eq 2 msgId payload
      (fun field => .piece (field 0) (field 1) (payload.drop 8))
      fun f g h => by rw [h 0 (by decide), h 1 (by decide)]
    have h8 := unpackFrom_eq 3 msgId payload
      (fun field => .cancel (field 0) (field 1) (field 2))
      fun f g h => by rw [h 0 (by decide), h 1 (by decide), h 2 (by decide)]
    have hne : (msgId :: payload).length ≠ 0 := Nat.succ_ne_zero _
    rw [Compiled.parseMessage, if_neg hne, List.headD_cons, parseMessage]
    generalize msgId.toNat = n
    rcases n with _ | _ | _ | _ | _ | _ | _ | _ | _ | n
    · rfl
    · rfl
    · rfl
    · rfl
    · exact h4
    · rfl
    · exact h6
    · exact h7
    · exact h8
    · simp [Compiled.parseBody]

theorem handshakeFromBytes_eq (data : Bytes) :
    Compiled.handshakeFromBytes data = Handshake.fromBytes data := rfl

/-- The indices whose byte `Py_ssize_t` can number. -/
theorem byteIndex_fits_iff (index : ℕ) :
    Fits ssizeHalf ((index >>> 3 : ℕ) : ℤ) ↔ index < 2 ^ 66 := by
  rw [Nat.shiftRight_eq_div_pow, Fits, ssizeHalf]
  omega

theorem hasPiece_eq (data : Bytes) {index : ℕ} (h : index < 2 ^ 66) :
    Compiled.hasPiece data index = .ok (hasPiece data index) := by
  have hshift : index >>> 3 = index / 8 := Nat.shiftRight_eq_div_pow index 3
  rw [Compiled.hasPiece, hasPiece]
  dsimp only
  rw [if_neg (not_not_intro ((byteIndex_fits_iff index).mpr h)), hshift]
  cases hbyte : data[index / 8]? with
  | none =>
    have hlength := List.getElem?_eq_none_iff.mp hbyte
    rw [if_pos (by omega)]
  | some byte =>
    obtain ⟨hlength, -⟩ := List.getElem?_eq_some_iff.mp hbyte
    have hread : readByte data ((index / 8 : ℕ) : ℤ) = .ok byte := by
      rw [readByte, if_pos (Int.natCast_nonneg _), Int.toNat_natCast, hbyte]
    have hbit : byte.toNat.testBit (7 - index % 8) =
        decide ((byte.toNat >>> (7 - index % 8)) % 2 = 1) := by
      rw [Nat.testBit_eq_decide_div_mod_eq, Nat.shiftRight_eq_div_pow]
    rw [if_neg (by omega), hread]
    exact congrArg Except.ok hbit.symm

theorem hasPiece_overflow (data : Bytes) {index : ℕ} (h : 2 ^ 66 ≤ index) :
    Compiled.hasPiece data index = .error .overflowError := by
  have hfits : ¬ Fits ssizeHalf ((index >>> 3 : ℕ) : ℤ) :=
    fun hfits => absurd ((byteIndex_fits_iff index).mp hfits) (Nat.not_lt.mpr h)
  rw [Compiled.hasPiece]
  dsimp only
  rw [if_pos hfits]

/-- No index leads to a read outside of the buffer. -/
theorem hasPiece_inBounds (data : Bytes) (index : ℕ) (i : ℤ) :
    Compiled.hasPiece data index ≠ .error (.outOfBounds i) := by
  by_cases h : index < 2 ^ 66
  · rw [hasPiece_eq data h]
    intro heq
    cases heq
  · rw [hasPiece_overflow data (Nat.le_of_not_lt h)]
    intro heq
    cases heq

/-- The two modules give the same for these values, and every buffer access is in bounds. -/
structure Agree (data : Bytes) (m : MessageValue) (h : Handshake) (index : ℕ) : Prop where
  parseMessage : Compiled.parseMessage data = parseMessage data
  toBytes : Compiled.toBytes m = toBytes m
  handshakeToBytes : Compiled.handshakeToBytes h = h.toBytes
  handshakeFromBytes : Compiled.handshakeFromBytes data = Handshake.fromBytes data
  hasPiece : Compiled.hasPiece data index = .ok (hasPiece data index)
  inBounds : ∀ i, Compiled.hasPiece data index ≠ .error (.outOfBounds i)

/-- The modules agree exactly up to the first index that `byte_index` does not hold. -/
theorem agree_iff (data : Bytes) (m : MessageValue) (h : Handshake) (index : ℕ) :
    Agree data m h index ↔ index < 2 ^ 66 := by
  constructor
  · intro hagree
    by_contra hlarge
    have hpiece := hagree.hasPiece
    rw [hasPiece_overflow data (Nat.le_of_not_lt hlarge)] at hpiece
    cases hpiece
  · intro hsmall
    exact ⟨parseMessage_eq data, toBytes_eq m, rfl, handshakeFromBytes_eq data,
      hasPiece_eq data hsmall, hasPiece_inBounds data index⟩

theorem large_index_disagrees : ¬ Agree [] .keepAlive ⟨[], [], []⟩ (2 ^ 66) := by
  intro hagree
  have hpiece := hagree.hasPiece
  rw [hasPiece_overflow [] le_rfl] at hpiece
  cases hpiece

end CompiledProtocol
