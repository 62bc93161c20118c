import Aiobt.BtHandshake
import Aiobt.PeerMessages
import Aiobt.FramedStreams

/-! # Wire framing

`to_bytes` of the messages and `parse_message` of `protocol.py`, and `receive_message` of
`peer.py`. -/
namespace WireFraming

open ByteStrings BigEndian BtHandshake PeerMessages FramedStreams

inductive MessageError where
  | structError
  | unknownMessageId (msgId : ℕ)
  deriving DecidableEq, Repr

/-- `struct.pack("!IB", length, msg_id)`, with one more `I` for each field. -/
def pack (length : ℕ) (msgId : UInt8) (fields : List ℕ) : Except MessageError Bytes :=
  if ∀ n ∈ length :: fields, n < 2 ^ 32 then
    .ok (toBytes 4 length ++ msgId :: fields.flatMap (toBytes 4))
  else .error .structError

def encodeMessage : Message → Except MessageError Bytes
  | .keepAlive => .ok (toBytes 4 0)
  | .choke => pack 1 0 []
  | .unchoke => pack 1 1 []
  | .interested => pack 1 2 []
  | .notInterested => pack 1 3 []
  | .havePiece index => pack 5 4 [index]
  | .bitfield data => (pack (1 + data.length) 5 []).map (· ++ data)
  | .request index begin length => pack 13 6 [index, begin, length]
  | .piece index begin block => (pack (9 + block.length) 7 [index, begin]).map (· ++ block)
  | .cancel index begin length => pack 13 8 [index, begin, length]

/-- The `i`-th integer of `struct.unpack("!I...I", b)`. -/
def word (b : Bytes) (i : ℕ) : ℕ := fromBytes (slice b (4 * i) (4 * i + 4))

def unpack (count : ℕ) (b : Bytes) (build : (ℕ → ℕ) → Message) : Except MessageError Message :=
  if b.length = 4 * count then .ok (build (word b)) else .error .structError

def parseMessage : Bytes → Except MessageError Message
  | [] => .ok .keepAlive
  | msgId :: payload =>
    match msgId.toNat with
    | 0 => .ok .choke
    | 1 => .ok .unchoke
    | 2 => .ok .interested
    | 3 => .ok .notInterested
    | 4 => unpack 1 (payload.take 4) fun field => .havePiece (field 0)
    | 5 => .ok (.bitfield payload)
    | 6 => unpack 3 (payload.take 12) fun field => .request (field 0) (field 1) (field 2)
    | 7 => unpack 2 (payload.take 8) fun field => .piece (field 0) (field 1) (payload.drop 8)
    | 8 => unpack 3 (payload.take 12) fun field => .cancel (field 0) (field 1) (field 2)
    | msgId => .error (.unknownMessageId msgId)

inductive ReceiveError where
  | notConnected
  | incompleteRead (e : IncompleteRead)
  | message (e : MessageError)
  deriving DecidableEq, Repr

def receiveMessage : Option Bytes → Except ReceiveError (Message × Option Bytes)
  | none => .error .notConnected
  | some rest =>
    match readExactly 4 rest with
    | .error e => .error (.incompleteRead e)
    | .ok (lengthBytes, rest) =>
      if fromBytes lengthBytes = 0 then .ok (.keepAlive, some rest)
      else
        match readExactly (fromBytes lengthBytes) rest with
        | .error e => .error (.incompleteRead e)
        | .ok (payload, rest) =>
          match parseMessage payload with
          | .error e => .error (.message e)
          | .ok m => .ok (m, some rest)

def encodeWire (h : Handshake) (ms : List Message) : Except MessageError Bytes :=
  (ms.mapM encodeMessage).map fun parts => h.toBytes ++ parts.flatten

def msgId : Message → UInt8
  | .keepAlive => 0
  | .choke => 0
  | .unchoke => 1
  | .interested => 2
  | .notInterested => 3
  | .havePiece _ => 4
  | .bitfield _ => 5
  | .request _ _ _ => 6
  | .piece _ _ _ => 7
  | .cancel _ _ _ => 8

def fields : Message → List ℕ
  | .havePiece index => [index]
  | .request index begin length => [index, begin, length]
  | .piece index begin _ => [index, begin]
  | .cancel index begin length => [index, begin, length]
  | _ => []

def payload : Message → Bytes
  | .bitfield data => data
  | .piece _ _ block => block
  | _ => []

def body (m : Message) : Bytes :=
  if m = .keepAlive then [] else msgId m :: ((fields m).flatMap (toBytes 4) ++ payload m)

/-- Each integer of the message takes four bytes, and so does its length. -/
structure Fits (m : Message) : Prop where
  fields : ∀ n ∈ fields m, n < 2 ^ 32
  length : (body m).length < 2 ^ 32

theorem length_flatMap_toBytes (ns : List ℕ) :
    (ns.flatMap (toBytes 4)).length = 4 * ns.length := by
  induction ns with
  | nil => rfl
  | cons n ns ih =>
    rw [List.flatMap_cons, List.length_append, length_toBytes, ih, List.length_cons]
    omega

theorem length_body {m : Message} (h : m ≠ .keepAlive) :
    (body m).length = 1 + 4 * (fields m).length + (payload m).length := by
  rw [body, if_neg h, List.length_cons, List.length_append, length_flatMap_toBytes]
  omega

theorem pack_ok {length : ℕ} {msgId : UInt8} {ns : List ℕ} (hlength : length < 2 ^ 32)
    (hfields : ∀ n ∈ ns, n < 2 ^ 32) :
    pack length msgId ns = .ok (toBytes 4 length ++ msgId :: ns.flatMap (toBytes 4)) := by
  apply if_pos
  intro n hn
  rcases List.mem_cons.mp hn with rfl | hn
  · exact hlength
  · exact hfields n hn

/-- The length that a message is sent with counts its id. -/
theorem pack_frame {m : Message} (hm : m ≠ .keepAlive) (hfits : Fits m) :
    (pack (1 + 4 * (fields m).length + (payload m).length) (msgId m) (fields m)).map
      (· ++ payload m) = .ok (frame 4 (body m)) := by
  have hlength := hfits.length
  rw [length_body hm] at hlength
  rw [pack_ok hlength hfits.fields, frame, length_body hm, body, if_neg hm]
  simp [Except.map]

theorem map_append_nil (packed : Except MessageError Bytes) : packed.map (· ++ []) = packed := by
  cases packed with
  | error e => rfl
  | ok b => simp [Except.map]

theorem encodeMessage_fits {m : Message} (hfits : Fits m) :
    encodeMessage m = .ok (frame 4 (body m)) := by
  by_cases hm : m = .keepAlive
  · subst hm
    rfl
  · rw [← pack_frame hm hfits]
    cases m with
    | keepAlive => exact absurd rfl hm
    | bitfield data => rfl
    | piece index begin block => rfl
    | choke => rfl
    | unchoke => rfl
    | interested => rfl
    | notInterested => rfl
    | havePiece index => exact (map_append_nil _).symm
    | request index begin length => exact (map_append_nil _).symm
    | cancel index begin length => exact (map_append_nil _).symm

theorem word_nil (i : ℕ) : word [] i = 0 := by
  rw [word, slice, List.take_nil, List.drop_nil]
  rfl

theorem word_zero {n : ℕ} (hn : n < 2 ^ 32) (b : Bytes) : word (toBytes 4 n ++ b) 0 = n := by
  have htake : slice (toBytes 4 n ++ b) 0 4 = toBytes 4 n := by
    rw [slice, List.drop_zero]
    exact List.take_left' (length_toBytes 4 n)
  rw [word, Nat.mul_zero, Nat.zero_add, htake]
  exact fromBytes_toBytes hn

theorem word_succ (n i : ℕ) (b : Bytes) : word (toBytes 4 n ++ b) (i + 1) = word b i := by
  have hdrop : (toBytes 4 n ++ b).drop (4 * (i + 1)) = b.drop (4 * i) := by
    rw [Nat.mul_succ, Nat.add_comm, ← List.drop_drop, List.drop_left' (length_toBytes 4 n)]
  rw [word, word, slice_add, slice_add, hdrop]

theorem word_flatMap {ns : List ℕ} (hns : ∀ n ∈ ns, n < 2 ^ 32) (i : ℕ) :
    word (ns.flatMap (toBytes 4)) i = ns.getD i 0 := by
  induction ns generalizing i with
  | nil => exact word_nil i
  | cons n ns ih =>
    rw [List.flatMap_cons]
    cases i with
    | zero => exact word_zero (hns n List.mem_cons_self) _
    | succ i =>
      rw [word_succ, List.getD_cons_succ]
      exact ih (fun k hk => hns k (List.mem_cons_of_mem n hk)) i

/-- The integers at the front of a payload are read back. -/
theorem unpack_fields {ns : List ℕ} (hns : ∀ n ∈ ns, n < 2 ^ 32) (rest : Bytes)
    (build : (ℕ → ℕ) → Message) :
    unpack ns.length ((ns.flatMap (toBytes 4) ++ rest).take (4 * ns.length)) build =
      .ok (build fun i => ns.getD i 0) := by
  have hlen := length_flatMap_toBytes ns
  rw [List.take_left' hlen, unpack, if_pos hlen, funext (word_flatMap hns)]

theorem parseMessage_body {m : Message} (hfits : Fits m) : parseMessage (body m) = .ok m := by
  have hfields := hfits.fields
  cases m with
  | keepAlive => rfl
  | choke => rfl
  | unchoke => rfl
  | interested => rfl
  | notInterested => rfl
  | bitfield data => rfl
  | havePiece index => exact unpack_fields hfields [] fun field => .havePiece (field 0)
  | request index begin length =>
    exact unpack_fields hfields [] fun field => .request (field 0) (field 1) (field 2)
  | cancel index begin length =>
    exact unpack_fields hfields [] fun field => .cancel (field 0) (field 1) (field 2)
  | piece index begin block =>
    have hdrop : ([index, begin].flatMap (toBytes 4) ++ block).drop 8 = block :=
      List.drop_left' (length_flatMap_toBytes [index, begin])
    have h := unpack_fields hfields block fun field => .piece (field 0) (field 1)
      (([index, begin].flatMap (toBytes 4) ++ block).drop 8)
    apply h.trans
    rw [hdrop]
    rfl

/-- One message is read back, and nothing behind it is touched. -/
theorem receiveMessage_frame {m : Message} (hfits : Fits m) (rest : Bytes) :
    receiveMessage (some (frame 4 (body m) ++ rest)) = .ok (m, some rest) := by
  have hlength : fromBytes (toBytes 4 (body m).length) = (body m).length :=
    fromBytes_toBytes hfits.length
  simp only [receiveMessage, readExactly_frame, hlength]
  by_cases hnil : body m = []
  · have hm : m = .keepAlive := by
      by_contra hm
      rw [body, if_neg hm] at hnil
      cases hnil
    subst hm
    rfl
  · have hpos : (body m).length ≠ 0 := fun hzero => hnil (List.eq_nil_of_length_eq_zero hzero)
    simp only [if_neg hpos, readExactly_append, parseMessage_body hfits]

theorem encodeWire_fits {h : Handshake} {ms : List Message} (hfits : ∀ m ∈ ms, Fits m) :
    encodeWire h ms = .ok (h.toBytes ++ ms.flatMap fun m => frame 4 (body m)) := by
  have hparts : ms.mapM encodeMessage = .ok (ms.map fun m => frame 4 (body m)) := by
    induction ms with
    | nil => rfl
    | cons m ms ih =>
      have hmore := ih fun k hk => hfits k (List.mem_cons_of_mem m hk)
      rw [List.mapM_cons, encodeMessage_fits (hfits m List.mem_cons_self), hmore]
      rfl
  rw [encodeWire, hparts, List.flatMap_def]
  rfl

/-- A handshake and the messages behind it are read back, and the stream is used up. -/
theorem wire_round_trip {h : Handshake} {ms : List Message} (hsized : h.Sized)
    (hfits : ∀ m ∈ ms, Fits m) :
    ∃ wire, encodeWire h ms = .ok wire ∧
      Handshake.fromBytes (wire.take handshakeLength) = .ok h ∧
      readMany receiveMessage ms.length (some (wire.drop handshakeLength)) = .ok (ms, some []) := by
  refine ⟨_, encodeWire_fits hfits, ?_, ?_⟩
  · rw [List.take_left' hsized.length_toBytes]
    exact Handshake.fromBytes_toBytes hsized
  · rw [List.drop_left' hsized.length_toBytes]
    have hread := readMany_flatMap ms
      (fun m hm rest => receiveMessage_frame (hfits m hm) rest) []
    rwa [List.append_nil] at hread

def someHandshake : Handshake := ⟨List.replicate 20 1, List.replicate 20 2, List.replicate 8 0⟩

def someMessages : List Message :=
  [.keepAlive, .bitfield [], .request 0 (2 ^ 32 - 1) 16384, .piece 1 0 [7, 8], .choke]

theorem wire_round_trip_some : ∃ wire, encodeWire someHandshake someMessages = .ok wire ∧
    Handshake.fromBytes (wire.take handshakeLength) = .ok someHandshake ∧
    readMany receiveMessage someMessages.length (some (wire.drop handshakeLength)) =
      .ok (someMessages, some []) := by
  apply wire_round_trip ⟨rfl, rfl, rfl⟩
  intro m hm
  simp only [someMessages, List.mem_cons, List.not_mem_nil, or_false] at hm
  rcases hm with rfl | rfl | rfl | rfl | rfl <;>
    exact ⟨by decide, by decide⟩

theorem word_lt (b : Bytes) (i : ℕ) : word b i < 2 ^ 32 := by
  have hlength : (slice b (4 * i) (4 * i + 4)).length ≤ 4 := by
    rw [length_slice]
    omega
  refine lt_of_lt_of_le (fromBytes_lt _) ?_
  exact (Nat.pow_le_pow_right (by omega) hlength).trans (by norm_num)

theorem unpack_ok {count : ℕ} {b : Bytes} {build : (ℕ → ℕ) → Message} {m : Message}
    (h : unpack count b build = .ok m) : m = build (word b) := by
  unfold unpack at h
  split at h
  · exact (Except.ok.inj h).symm
  · cases h

/-- Integers that were read fit into four bytes. -/
theorem parseMessage_fields {data : Bytes} {m : Message} (h : parseMessage data = .ok m) :
    ∀ n ∈ fields m, n < 2 ^ 32 := by
  have hwords : ∀ (b : Bytes) (ks : List ℕ), ∀ n ∈ ks.map (word b), n < 2 ^ 32 := by
    intro b ks n hn
    obtain ⟨k, -, rfl⟩ := List.mem_map.mp hn
    exact word_lt b k
  have hnone : ∀ n ∈ ([] : List ℕ), n < 2 ^ 32 := fun n hn => by cases hn
  unfold parseMessage at h
  split at h
  · cases h
    exact hnone
  · split at h
    case h_5 =>
      rw [unpack_ok h]
      exact hwords _ [0]
    case h_7 =>
      rw [unpack_ok h]
      exact hwords _ [0, 1, 2]
    case h_8 =>
      rw [unpack_ok h]
      exact hwords _ [0, 1]
    case h_9 =>
      rw [unpack_ok h]
      exact hwords _ [0, 1, 2]
    case h_10 => cases h
    all_goals
      cases h
      exact hnone

theorem receiveMessage_ok {wire : Bytes} {m : Message} {rest : Option Bytes}
    (h : receiveMessage (some wire) = .ok (m, rest)) :
    (∀ n ∈ fields m, n < 2 ^ 32) ∧ ∃ left, rest = some left ∧ left.length + 4 ≤ wire.length := by
  unfold receiveMessage readExactly at h
  by_cases hshort : wire.length < 4
  · simp only [if_pos hshort] at h
    cases h
  · simp only [if_neg hshort] at h
    split at h
    · cases h
      refine ⟨fun n hn => absurd hn List.not_mem_nil, _, rfl, ?_⟩
      rw [List.length_drop]
      omega
    · split at h
      · cases h
      · next hread =>
        split at hread
        · cases hread
        · cases hread
          split at h
          · cases h
          · next hparse =>
            cases h
            refine ⟨parseMessage_fields hparse, _, rfl, ?_⟩
            rw [List.length_drop, List.length_drop]
            omega

end WireFraming
