import Aiobt.ByteStrings

/-! # The BitTorrent handshake

`Handshake` of `protocol.py`. -/
namespace BtHandshake

open ByteStrings

def protocolString : Bytes :=
  [0x42, 0x69, 0x74, 0x54, 0x6f, 0x72, 0x72, 0x65, 0x6e, 0x74, 0x20, 0x70, 0x72, 0x6f, 0x74, 0x6f,
    0x63, 0x6f, 0x6c]

def handshakeLength : ℕ := 1 + 19 + 8 + 20 + 20

structure Handshake where
  infoHash : Bytes
  peerId : Bytes
  reserved : Bytes := List.replicate 8 0
  deriving DecidableEq, Repr

inductive HandshakeError where
  | tooShort (length : ℕ)
  | unexpectedPstrlen (pstrlen : UInt8)
  | unexpectedProtocolString (pstr : Bytes)
  deriving DecidableEq, Repr

def Handshake.toBytes (h : Handshake) : Bytes :=
  [19] ++ protocolString ++ h.reserved ++ h.infoHash ++ h.peerId

def Handshake.fromBytes (data : Bytes) : Except HandshakeError Handshake :=
  if data.length < handshakeLength then .error (.tooShort data.length)
  else
    let pstrlen := data.headD 0
    if pstrlen ≠ 19 then .error (.unexpectedPstrlen pstrlen)
    else
      let pstr := slice data 1 20
      if pstr ≠ protocolString then .error (.unexpectedProtocolString pstr)
      else .ok ⟨slice data 28 48, slice data 48 68, slice data 20 28⟩

structure Handshake.Sized (h : Handshake) : Prop where
  infoHash : h.infoHash.length = 20
  peerId : h.peerId.length = 20
  reserved : h.reserved.length = 8

@[simp] theorem Handshake.length_toBytes (h : Handshake) :
    h.toBytes.length = 20 + h.reserved.length + h.infoHash.length + h.peerId.length := by
  have hpstr : protocolString.length = 19 := rfl
  simp only [Handshake.toBytes, List.length_append, List.length_singleton, hpstr]

theorem Handshake.Sized.length_toBytes {h : Handshake} (hsized : h.Sized) :
    h.toBytes.length = handshakeLength := by
  rw [Handshake.length_toBytes, hsized.reserved, hsized.infoHash, hsized.peerId]
  rfl

theorem Handshake.fromBytes_toBytes {h : Handshake} (hsized : h.Sized) :
    Handshake.fromBytes h.toBytes = .ok h := by
  obtain ⟨infoHash, peerId, reserved⟩ := h
  obtain ⟨hhash, hpeer, hreserved⟩ := hsized
  simp only at hhash hpeer hreserved
  have hfront : (Handshake.toBytes ⟨infoHash, peerId, reserved⟩).drop 20 =
      reserved ++ (infoHash ++ peerId) := by
    simp [Handshake.toBytes, protocolString]
  have hreserved' := slice_of_drop hfront
  have hafter := drop_add_of_drop hfront
  have hhash' := slice_of_drop hafter
  have hpeer' := slice_of_drop ((drop_add_of_drop hafter).trans (List.append_nil _).symm)
  rw [hreserved] at hreserved' hhash' hpeer'
  rw [hhash] at hhash' hpeer'
  rw [hpeer] at hpeer'
  have hlen : (Handshake.toBytes ⟨infoHash, peerId, reserved⟩).length = handshakeLength :=
    Handshake.Sized.length_toBytes ⟨hhash, hpeer, hreserved⟩
  have hpstrlen : (Handshake.toBytes ⟨infoHash, peerId, reserved⟩).headD 0 = 19 := rfl
  have hpstr : slice (Handshake.toBytes ⟨infoHash, peerId, reserved⟩) 1 20 = protocolString := by
    simp [Handshake.toBytes, protocolString, slice]
  simp only [Handshake.fromBytes, hlen, hpstrlen, hpstr, hreserved', hhash', hpeer', ne_eq,
    not_true_eq_false, Nat.lt_irrefl, if_false]

theorem Handshake.fromBytes_ok {data : Bytes} {h : Handshake}
    (hok : Handshake.fromBytes data = .ok h) :
    handshakeLength ≤ data.length ∧ data.head? = some 19 ∧ slice data 1 20 = protocolString ∧
      h.infoHash = slice data 28 48 := by
  unfold Handshake.fromBytes at hok
  simp only at hok
  split at hok
  · cases hok
  · next hlen =>
    split at hok
    · cases hok
    · next hpstrlen =>
      split at hok
      · cases hok
      · next hpstr =>
        cases hok
        refine ⟨by omega, ?_, not_not.mp hpstr, rfl⟩
        cases data with
        | nil => exact absurd (by decide) hlen
        | cons first rest => exact congrArg some (not_not.mp hpstrlen)

end BtHandshake
