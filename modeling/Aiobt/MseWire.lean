import Aiobt.MseHandshake

/-! # A handshake on the wire

What either side reads when the other one conforms, whatever the segments: each await of the model
is at a known place of the bytes to come. -/
namespace MseWire

open ByteStrings BigEndian DiffieHellman StreamCiphers Rc4 SegmentedReads MseStreams MseHandshake

def header (method padLen : ℕ) : Bytes := vc ++ toBytes 4 method ++ toBytes 2 padLen

@[simp] theorem length_header (method padLen : ℕ) : (header method padLen).length = 14 := by
  simp [header, vc]

theorem header_vc (method padLen : ℕ) : slice (header method padLen) 0 8 = vc := rfl

theorem header_method {method : ℕ} (h : method < 256 ^ 4) (padLen : ℕ) :
    fromBytes (slice (header method padLen) 8 12) = method := by
  have hslice : slice (header method padLen) 8 12 = toBytes 4 method := rfl
  rw [hslice, fromBytes_toBytes h]

theorem header_padLen (method : ℕ) {padLen : ℕ} (h : padLen < 256 ^ 2) :
    fromBytes (slice (header method padLen) 12 14) = padLen := by
  have hslice : slice (header method padLen) 12 14 = toBytes 2 padLen := rfl
  rw [hslice, fromBytes_toBytes h]

theorem split_crypt {d : RC4} {data rest text more t : Bytes}
    (h : data ++ rest = crypt next d (text ++ more) ++ t) (hlen : text.length ≤ data.length) :
    crypt next d (data.take text.length) = text ∧
      data.drop text.length ++ rest = crypt next (skip next d text.length) more ++ t := by
  rw [crypt_append, List.append_assoc] at h
  obtain ⟨htake, hdrop⟩ := split_front h (by simpa using hlen)
  rw [length_crypt] at htake hdrop
  exact ⟨by rw [htake, crypt_crypt], hdrop⟩

theorem split_header {d : RC4} {method padLen : ℕ} {data rest more t : Bytes}
    (h : data ++ rest = crypt next d (header method padLen ++ more) ++ t) (hlen : 14 ≤ data.length) :
    crypt next d (data.take 14) = header method padLen ∧
      data.drop 14 ++ rest = crypt next (skip next d 14) more ++ t := by
  have hsplit := split_crypt h (by rwa [length_header])
  rwa [length_header] at hsplit

def sharedSecret (x y : PrivateKey) : Bytes := dhSecret (dhKeypair y).2 x.int

theorem sharedSecret_comm (x y : PrivateKey) : sharedSecret x y = sharedSecret y x :=
  dhSecret_comm y x

def cipherA (secret infoHash : Bytes) : RC4 := RC4.new (Sha1.sha1 (keyA ++ secret ++ infoHash)) 1024

def cipherB (secret infoHash : Bytes) : RC4 := RC4.new (Sha1.sha1 (keyB ++ secret ++ infoHash)) 1024

theorem deriveKeys_true (secret infoHash : Bytes) :
    deriveKeys secret infoHash true = (cipherA secret infoHash, cipherB secret infoHash) := rfl

structure Answer where
  privateKey : PrivateKey
  padB : Pad
  padD : Pad
  cryptoSelect : ℕ
  select_lt : cryptoSelect < 256 ^ 4

/-- What an initiator puts into a handshake; `ia` is its initial payload. -/
structure Offer where
  privateKey : PrivateKey
  infoHash : Bytes
  padA : Pad
  padC : Pad
  cryptoProvide : ℕ
  provide_lt : cryptoProvide < 256 ^ 4
  ia : Bytes
  ia_lt : ia.length < 256 ^ 2

def Offer.text (o : Offer) : Bytes :=
  header o.cryptoProvide o.padC.1.length ++ (o.padC ++ (toBytes 2 o.ia.length ++ o.ia))

/-- All that a receiver sends under the secret, and `tail` behind it. -/
def Answer.wire (a : Answer) (secret infoHash tail : Bytes) : Bytes :=
  (dhKeypair a.privateKey).2 ++
    (a.padB ++ (crypt next (cipherB secret infoHash) (responseText a.cryptoSelect a.padD) ++ tail))

/-- All that an initiator sends under the secret, and `tail` behind it. -/
def Offer.wire (o : Offer) (secret tail : Bytes) : Bytes :=
  (dhKeypair o.privateKey).2 ++
    (o.padA ++ (req1Hash secret ++ (obfuscatedHash o.infoHash secret ++
      (crypt next (cipherA secret o.infoHash) o.text ++ tail))))

@[simp] theorem Offer.length_text (o : Offer) :
    o.text.length = 16 + o.padC.1.length + o.ia.length := by
  simp only [Offer.text, List.length_append, length_header, length_toBytes]
  omega

@[simp] theorem length_responseText (cryptoSelect : ℕ) (padD : Bytes) :
    (responseText cryptoSelect padD).length = 14 + padD.length := by
  simp only [responseText, vc, List.length_append, List.length_replicate, length_toBytes]

theorem Answer.length_wire (a : Answer) (secret infoHash tail : Bytes) :
    (a.wire secret infoHash tail).length =
      96 + a.padB.1.length + 14 + a.padD.1.length + tail.length := by
  simp only [Answer.wire, List.length_append, length_dhKeypair, length_crypt, length_responseText]
  omega

theorem Offer.length_wire (o : Offer) (secret tail : Bytes) :
    (o.wire secret tail).length = 96 + o.padA.1.length + 40 + o.text.length + tail.length := by
  have hreq1 : (req1Hash secret).length = 20 := Sha1.length_sha1 _
  have hhash : (obfuscatedHash o.infoHash secret).length = 20 := by
    simp [obfuscatedHash]
  simp only [Offer.wire, List.length_append, length_dhKeypair, length_crypt, hreq1, hhash]
  omega

theorem Pad.length_lt (p : Pad) : p.1.length < 256 ^ 2 := by
  have h := p.2
  omega

section Initiator

variable (c : InitiatorCall) (a : Answer) (tail : Bytes)

def initiatorSecret : Bytes := sharedSecret c.privateKey a.privateKey

def initiatorEnc : RC4 :=
  skip next (cipherA (initiatorSecret c a) c.infoHash) (16 + c.padC.1.length)

def initiatorDec : RC4 := cipherB (initiatorSecret c a) c.infoHash

theorem cryptoBlock_snd : (c.cryptoBlock (initiatorSecret c a)).2 = initiatorEnc c a := by
  simp only [InitiatorCall.cryptoBlock, process_snd, deriveKeys_true, initiatorEnc,
    List.length_append, length_toBytes, vc, List.length_replicate]
  congr 1
  omega

inductive InitiatorAt : InitiatorOutcome → Bytes → Prop
  | publicKey {rest} : rest = a.wire (initiatorSecret c a) c.infoHash tail →
      InitiatorAt (.waits .publicKey) rest
  | scanning {scanBuf rest} : scanBuf.length < a.padB.1.length + 8 →
      scanBuf ++ rest =
        a.padB ++ (crypt next (initiatorDec c a) (responseText a.cryptoSelect a.padD) ++ tail) →
      InitiatorAt (.waits (.scanning (initiatorSecret c a) (initiatorEnc c a) scanBuf)) rest
  | header {data rest} : data.length < 14 →
      data ++ rest = crypt next (initiatorDec c a) (responseText a.cryptoSelect a.padD) ++ tail →
      InitiatorAt (.waits (.header (initiatorEnc c a) (initiatorDec c a) data)) rest
  | padding {data rest} : data.length < a.padD.1.length →
      data ++ rest = crypt next (skip next (initiatorDec c a) 14) a.padD ++ tail →
      InitiatorAt (.waits (.padding (initiatorEnc c a) (skip next (initiatorDec c a) 14)
        a.cryptoSelect a.padD.1.length data)) rest
  | done {leftover o rest} : leftover ++ rest = tail →
      o = initiatorResult c.policy (initiatorEnc c a)
        (skip next (initiatorDec c a) (14 + a.padD.1.length)) a.cryptoSelect leftover →
      InitiatorAt o rest

theorem initiatorResult_finished (policy : EncryptionPolicy) (enc dec : RC4) (cryptoSelect : ℕ)
    (data : Bytes) (st : Initiating) : initiatorResult policy enc dec cryptoSelect data ≠ .waits st := by
  unfold initiatorResult
  intro h
  split at h
  · split at h <;> cases h
  · split at h
    · split at h <;> cases h
    · cases h

variable {c a tail} {rest : Bytes}

theorem readPadD_at {data : Bytes}
    (h : data ++ rest = crypt next (skip next (initiatorDec c a) 14) a.padD ++ tail) :
    InitiatorAt c a tail (readPadD c.policy (initiatorEnc c a) (skip next (initiatorDec c a) 14)
      a.cryptoSelect a.padD.1.length data) rest := by
  unfold readPadD
  split
  · next hlt => exact .padding hlt h
  · next hge =>
    obtain ⟨-, hdrop⟩ := split_front h (by simpa using hge)
    rw [length_crypt] at hdrop
    apply InitiatorAt.done hdrop
    rw [process_snd, List.length_take_of_le (by omega), ← skip_add]

theorem readResponse_at {data : Bytes}
    (h : data ++ rest = crypt next (initiatorDec c a) (responseText a.cryptoSelect a.padD) ++ tail) :
    InitiatorAt c a tail (readResponse c.policy (initiatorEnc c a) (initiatorDec c a) data) rest := by
  unfold readResponse
  split
  · next hlt => exact .header hlt h
  · next hge =>
    obtain ⟨htake, hdrop⟩ := split_header h (by omega)
    have hlen : (data.take 14).length = 14 := List.length_take_of_le (by omega)
    simp only [process_fst, process_snd, htake, hlen, header_vc, header_method a.select_lt,
      header_padLen _ (Pad.length_lt a.padD), ne_eq, not_true_eq_false, if_false]
    exact readPadD_at hdrop

/-- The answer behind its pad begins with the encrypted verification constant. -/
theorem answer_front {scanBuf : Bytes} (h : scanBuf ++ rest =
      a.padB ++ (crypt next (initiatorDec c a) (responseText a.cryptoSelect a.padD) ++ tail)) :
    ∃ t, scanBuf ++ rest = a.padB ++ (crypt next (initiatorDec c a) vc ++ t) := by
  rw [h, responseText, List.append_assoc, List.append_assoc, crypt_append, List.append_assoc]
  exact ⟨_, rfl⟩

theorem scanForVc_short {scanBuf : Bytes}
    (hmarker : FirstBehind (crypt next (initiatorDec c a) vc) a.padB)
    (hlen : scanBuf.length < a.padB.1.length + 8)
    (h : scanBuf ++ rest =
      a.padB ++ (crypt next (initiatorDec c a) (responseText a.cryptoSelect a.padD) ++ tail)) :
    scanForVc c (initiatorSecret c a) (initiatorEnc c a) scanBuf =
      .waits (.scanning (initiatorSecret c a) (initiatorEnc c a) scanBuf) := by
  have hvc : (crypt next (initiatorDec c a) vc).length = 8 := length_crypt _ _ vc
  have hpad := a.padB.2
  obtain ⟨t, ht⟩ := answer_front h
  simp only [scanForVc, deriveKeys_true, process_fst]
  rw [← initiatorDec, hmarker.find_none ht (by omega)]
  simp only
  rw [if_neg (by omega)]

theorem scanForVc_long {scanBuf : Bytes}
    (hmarker : FirstBehind (crypt next (initiatorDec c a) vc) a.padB)
    (hlen : a.padB.1.length + 8 ≤ scanBuf.length)
    (h : scanBuf ++ rest =
      a.padB ++ (crypt next (initiatorDec c a) (responseText a.cryptoSelect a.padD) ++ tail)) :
    scanForVc c (initiatorSecret c a) (initiatorEnc c a) scanBuf =
      readResponse c.policy (initiatorEnc c a) (initiatorDec c a)
        (scanBuf.drop a.padB.1.length) := by
  have hvc : (crypt next (initiatorDec c a) vc).length = 8 := length_crypt _ _ vc
  obtain ⟨t, ht⟩ := answer_front h
  simp only [scanForVc, deriveKeys_true, process_fst]
  rw [← initiatorDec, hmarker.find_some ht (by omega)]

theorem scanForVc_at {scanBuf : Bytes} (hmarker : FirstBehind (crypt next (initiatorDec c a) vc) a.padB)
    (h : scanBuf ++ rest =
      a.padB ++ (crypt next (initiatorDec c a) (responseText a.cryptoSelect a.padD) ++ tail)) :
    InitiatorAt c a tail (scanForVc c (initiatorSecret c a) (initiatorEnc c a) scanBuf) rest := by
  by_cases hlen : scanBuf.length < a.padB.1.length + 8
  · rw [scanForVc_short hmarker hlen h]
    exact .scanning hlen h
  · rw [scanForVc_long hmarker (by omega) h]
    obtain ⟨-, hdrop⟩ := split_front h (by omega)
    exact readResponse_at hdrop

theorem InitiatorAt.feed {st : Initiating} {segment : Bytes}
    (hmarker : FirstBehind (crypt next (initiatorDec c a) vc) a.padB)
    (hserves : ((mseInitiate c).demand st).Serves segment)
    (h : InitiatorAt c a tail (.waits st) (segment ++ rest)) :
    InitiatorAt c a tail ((mseInitiate c).feed st segment).2 rest := by
  cases h with
  | publicKey hrest =>
    have hlen : segment.length = (dhKeypair a.privateKey).2.length := by
      rw [length_dhKeypair]
      exact hserves
    rw [Answer.wire] at hrest
    have hsplit := List.append_inj hrest hlen
    rw [hsplit.1]
    change InitiatorAt c a tail (.waits (.scanning (initiatorSecret c a)
      (c.cryptoBlock (initiatorSecret c a)).2 [])) rest
    rw [cryptoBlock_snd]
    exact .scanning (by simp) hsplit.2
  | scanning _ hrest =>
    rw [← List.append_assoc] at hrest
    exact scanForVc_at hmarker hrest
  | header _ hrest =>
    rw [← List.append_assoc] at hrest
    exact readResponse_at hrest
  | padding _ hrest =>
    rw [← List.append_assoc] at hrest
    exact readPadD_at hrest
  | done _ ho => exact absurd ho.symm (initiatorResult_finished _ _ _ _ _ _)

theorem InitiatorAt.ready {st : Initiating} (h : InitiatorAt c a tail (.waits st) rest) :
    ((mseInitiate c).demand st).Ready rest ∧ tail.length < rest.length := by
  cases h with
  | publicKey hrest =>
    have hlen := congrArg List.length hrest
    simp only [Answer.wire, List.length_append, length_dhKeypair] at hlen
    exact ⟨ready_exactly (by omega), by omega⟩
  | scanning hlt hrest =>
    have hlen := congrArg List.length hrest
    simp only [List.length_append, length_crypt, length_responseText] at hlen
    exact ⟨ready_upTo (List.length_pos_iff.mp (by omega)), by omega⟩
  | header hlt hrest =>
    have hlen := congrArg List.length hrest
    simp only [List.length_append, length_crypt, length_responseText] at hlen
    exact ⟨ready_upTo (List.length_pos_iff.mp (by omega)), by omega⟩
  | padding hlt hrest =>
    have hlen := congrArg List.length hrest
    simp only [List.length_append, length_crypt] at hlen
    exact ⟨ready_upTo (List.length_pos_iff.mp (by omega)), by omega⟩
  | done _ ho => exact absurd ho.symm (initiatorResult_finished _ _ _ _ _ _)

end Initiator

section Receiver

variable (c : ReceiverCall) (o : Offer) (tail : Bytes)

def receiverSecret : Bytes := sharedSecret c.privateKey o.privateKey

def receiverEnc : RC4 := cipherB (receiverSecret c o) o.infoHash

def receiverDec : RC4 := cipherA (receiverSecret c o) o.infoHash

/-- The receiver can tell what is offered: the marker is not met by chance before its place, and of
the info hashes that it has, only that of the offer matches. -/
structure Recognised : Prop where
  marker : FirstBehind (req1Hash (receiverSecret c o)) o.padA
  known : o.infoHash ∈ c.infoHashLookup.hashes
  distinct : ∀ h ∈ c.infoHashLookup.hashes,
    obfuscatedHash h (receiverSecret c o) = obfuscatedHash o.infoHash (receiverSecret c o) →
    h = o.infoHash

/-- What the receiver does once the offer is read and `leftover` is at hand. -/
def receiverDone (leftover : Bytes) : ReceiverStep :=
  respond c o.infoHash (receiverEnc c o)
    (skip next (receiverDec c o) (16 + o.padC.1.length + o.ia.length)) o.cryptoProvide leftover

inductive ReceiverAt : Outcome Receiving Negotiated Failure → Bytes → Prop
  | publicKey {rest} : rest = o.wire (receiverSecret c o) tail → ReceiverAt (.waits .publicKey) rest
  | scanning {scanBuf req1Pos rest} :
      req1Pos = none ∧ scanBuf.length < o.padA.1.length + 20 ∨
        req1Pos = some o.padA.1.length ∧ o.padA.1.length + 20 ≤ scanBuf.length ∧
          scanBuf.length < o.padA.1.length + 40 →
      scanBuf ++ rest = o.padA ++ (req1Hash (receiverSecret c o) ++
        (obfuscatedHash o.infoHash (receiverSecret c o) ++
          (crypt next (receiverDec c o) o.text ++ tail))) →
      ReceiverAt (.waits (.scanning (receiverSecret c o) scanBuf req1Pos)) rest
  | header {data rest} : data.length < 14 →
      data ++ rest = crypt next (receiverDec c o) o.text ++ tail →
      ReceiverAt (.waits (.header o.infoHash (receiverEnc c o) (receiverDec c o) data)) rest
  | padding {data rest} : data.length < o.padC.1.length + 2 →
      data ++ rest = crypt next (skip next (receiverDec c o) 14)
        (o.padC ++ (toBytes 2 o.ia.length ++ o.ia)) ++ tail →
      ReceiverAt (.waits (.padding o.infoHash (receiverEnc c o) (skip next (receiverDec c o) 14)
        o.cryptoProvide o.padC.1.length data)) rest
  | payload {data rest} : data.length < o.ia.length →
      data ++ rest = crypt next (skip next (receiverDec c o) (16 + o.padC.1.length)) o.ia ++ tail →
      ReceiverAt (.waits (.payload o.infoHash (receiverEnc c o)
        (skip next (receiverDec c o) (16 + o.padC.1.length)) o.cryptoProvide o.ia.length data)) rest
  | done {leftover out rest} : leftover ++ rest = tail → out = (receiverDone c o leftover).2 →
      ReceiverAt out rest
  | returned {leftover negotiated rest} : leftover ++ rest = tail →
      (receiverDone c o leftover).2 = .waits (.responding negotiated) →
      ReceiverAt (.returns negotiated) rest

def Responding (st : Receiving) : Prop := ∃ negotiated, st = .responding negotiated

/-- What a segment comes to: the receiver has to read more, or it is done with the offer. -/
inductive ReceiverStepAt : ReceiverStep → Bytes → Prop
  | reads {st rest} : ReceiverAt c o tail (.waits st) rest → ¬ Responding st → st ≠ .publicKey →
      ReceiverStepAt ([], .waits st) rest
  | done {leftover rest} : leftover ++ rest = tail → ReceiverStepAt (receiverDone c o leftover) rest

theorem respond_cases (matchedHash : Bytes) (enc dec : RC4) (cryptoProvide : ℕ) (data : Bytes) :
    (∃ negotiated, (respond c matchedHash enc dec cryptoProvide data).2 =
        .waits (.responding negotiated)) ∨
      ∃ e, (respond c matchedHash enc dec cryptoProvide data).2 = .raises e := by
  unfold respond
  cases selectCrypto c.policy cryptoProvide with
  | error e => exact Or.inr ⟨e, rfl⟩
  | ok cryptoSelect => exact Or.inl ⟨_, rfl⟩

variable {c o tail} {rest : Bytes}

theorem ReceiverStepAt.receiverAt {step : ReceiverStep} (h : ReceiverStepAt c o tail step rest) :
    ReceiverAt c o tail step.2 rest := by
  cases h with
  | reads h _ _ => exact h
  | done hrest => exact .done hrest rfl

theorem readPayload_at {data : Bytes}
    (h : data ++ rest =
      crypt next (skip next (receiverDec c o) (16 + o.padC.1.length)) o.ia ++ tail) :
    ReceiverStepAt c o tail (readPayload c o.infoHash (receiverEnc c o)
      (skip next (receiverDec c o) (16 + o.padC.1.length)) o.cryptoProvide o.ia.length data)
      rest := by
  unfold readPayload
  split
  · next hlt => exact .reads (.payload hlt h) (fun ⟨_, h⟩ => nomatch h) nofun
  · next hge =>
    obtain ⟨-, hdrop⟩ := split_front h (by simpa using hge)
    rw [length_crypt] at hdrop
    rw [process_snd, List.length_take_of_le (by omega), ← skip_add]
    exact .done hdrop

theorem readPadC_at {data : Bytes}
    (h : data ++ rest = crypt next (skip next (receiverDec c o) 14)
      (o.padC ++ (toBytes 2 o.ia.length ++ o.ia)) ++ tail) :
    ReceiverStepAt c o tail (readPadC c o.infoHash (receiverEnc c o) (skip next (receiverDec c o) 14)
      o.cryptoProvide o.padC.1.length data) rest := by
  unfold readPadC
  simp only
  split
  · next hlt => exact .reads (.padding hlt h) (fun ⟨_, h⟩ => nomatch h) nofun
  · next hge =>
    have htext : (o.padC.1 ++ toBytes 2 o.ia.length).length = o.padC.1.length + 2 := by
      rw [List.length_append, length_toBytes]
    rw [← List.append_assoc o.padC.1] at h
    obtain ⟨htake, hdrop⟩ := split_crypt h (by omega)
    rw [htext] at htake hdrop
    have hlen : (data.take (o.padC.1.length + 2)).length = o.padC.1.length + 2 :=
      List.length_take_of_le (by omega)
    have hia : slice (o.padC.1 ++ toBytes 2 o.ia.length) o.padC.1.length (o.padC.1.length + 2) =
        toBytes 2 o.ia.length := by
      rw [slice_add, List.drop_left, List.take_of_length_le]
      rw [length_toBytes]
    rw [← skip_add] at hdrop
    rw [process_fst, process_snd, htake, hlen, hia, fromBytes_toBytes o.ia_lt, ← skip_add]
    have harith : 14 + (o.padC.1.length + 2) = 16 + o.padC.1.length := by omega
    rw [harith] at hdrop ⊢
    exact readPayload_at hdrop

theorem readOffer_at {data : Bytes}
    (h : data ++ rest = crypt next (receiverDec c o) o.text ++ tail) :
    ReceiverStepAt c o tail (readOffer c o.infoHash (receiverEnc c o) (receiverDec c o) data)
      rest := by
  unfold readOffer
  split
  · next hlt => exact .reads (.header hlt h) (fun ⟨_, h⟩ => nomatch h) nofun
  · next hge =>
    obtain ⟨htake, hdrop⟩ := split_header h (by omega)
    have hlen : (data.take 14).length = 14 := List.length_take_of_le (by omega)
    simp only [process_fst, process_snd, htake, hlen, header_vc, header_method o.provide_lt,
      header_padLen _ (Pad.length_lt o.padC), ne_eq, not_true_eq_false, if_false]
    exact readPadC_at hdrop

theorem find_matchedHash (hknown : Recognised c o) :
    (c.infoHashLookup.hashes.find? fun h =>
      obfuscatedHash h (receiverSecret c o) = obfuscatedHash o.infoHash (receiverSecret c o)) =
      some o.infoHash := by
  cases hfind : c.infoHashLookup.hashes.find? fun h =>
      obfuscatedHash h (receiverSecret c o) = obfuscatedHash o.infoHash (receiverSecret c o) with
  | none =>
    have hno := List.find?_eq_none.mp hfind o.infoHash hknown.known
    exact absurd (decide_eq_true rfl) hno
  | some h =>
    have hmatch := List.find?_some hfind
    rw [hknown.distinct h (List.mem_of_find?_eq_some hfind) (of_decide_eq_true hmatch)]

theorem identify_at (hknown : Recognised c o) {scanBuf : Bytes}
    (hlen : o.padA.1.length + 40 ≤ scanBuf.length)
    (h : scanBuf ++ rest = o.padA ++ (req1Hash (receiverSecret c o) ++
      (obfuscatedHash o.infoHash (receiverSecret c o) ++
        (crypt next (receiverDec c o) o.text ++ tail)))) :
    ReceiverStepAt c o tail (identify c (receiverSecret c o) scanBuf o.padA.1.length) rest := by
  have hreq1 : (req1Hash (receiverSecret c o)).length = 20 := Sha1.length_sha1 _
  have hhash : (obfuscatedHash o.infoHash (receiverSecret c o)).length = 20 := by
    simp [obfuscatedHash]
  obtain ⟨-, h1⟩ := split_front h (by omega)
  obtain ⟨-, h2⟩ := split_front h1 (by rw [List.length_drop]; omega)
  rw [List.drop_drop, hreq1] at h2
  obtain ⟨hmatch, h3⟩ := split_front h2 (by rw [List.length_drop]; omega)
  rw [List.drop_drop, hhash] at h3
  have hslice : slice scanBuf (o.padA.1.length + 20) (o.padA.1.length + 40) =
      obfuscatedHash o.infoHash (receiverSecret c o) := by
    rw [← hmatch, hhash, ← slice_add]
  unfold identify
  rw [hslice, find_matchedHash hknown]
  exact readOffer_at h3

theorem find_req1 (hknown : Recognised c o) {scanBuf t : Bytes} {req1Pos : Option ℕ}
    (hpos : req1Pos = none ∨ req1Pos = some o.padA.1.length)
    (hlen : o.padA.1.length + 20 ≤ scanBuf.length)
    (h : scanBuf ++ rest = o.padA ++ (req1Hash (receiverSecret c o) ++ t)) :
    req1Pos.or (find scanBuf (req1Hash (receiverSecret c o))) = some o.padA.1.length := by
  have hreq1 : (req1Hash (receiverSecret c o)).length = 20 := Sha1.length_sha1 _
  rw [hknown.marker.find_some h (by omega)]
  rcases hpos with rfl | rfl <;> rfl

theorem scanForReq1_short (hknown : Recognised c o) {scanBuf t : Bytes} {req1Pos : Option ℕ}
    (hpos : req1Pos = none ∨
      req1Pos = some o.padA.1.length ∧ o.padA.1.length + 20 ≤ scanBuf.length)
    (hlen : scanBuf.length < o.padA.1.length + 40)
    (h : scanBuf ++ rest = o.padA ++ (req1Hash (receiverSecret c o) ++ t)) :
    ∃ pos, scanForReq1 c (receiverSecret c o) scanBuf req1Pos =
        ([], .waits (.scanning (receiverSecret c o) scanBuf pos)) ∧
      (pos = none ∧ scanBuf.length < o.padA.1.length + 20 ∨
        pos = some o.padA.1.length ∧ o.padA.1.length + 20 ≤ scanBuf.length ∧
          scanBuf.length < o.padA.1.length + 40) := by
  have hreq1 : (req1Hash (receiverSecret c o)).length = 20 := Sha1.length_sha1 _
  have hpad := o.padA.2
  unfold scanForReq1
  by_cases hshort : scanBuf.length < o.padA.1.length + 20
  · rcases hpos with rfl | ⟨-, hlong⟩
    · rw [hknown.marker.find_none h (by omega), Option.none_or]
      simp only
      rw [if_neg (by omega)]
      exact ⟨none, rfl, Or.inl ⟨rfl, hshort⟩⟩
    · omega
  · rw [find_req1 hknown (hpos.imp_right And.left) (by omega) h]
    simp only
    rw [if_pos hlen]
    exact ⟨_, rfl, Or.inr ⟨rfl, by omega, hlen⟩⟩

theorem scanForReq1_long (hknown : Recognised c o) {scanBuf t : Bytes} {req1Pos : Option ℕ}
    (hpos : req1Pos = none ∨ req1Pos = some o.padA.1.length)
    (hlen : o.padA.1.length + 40 ≤ scanBuf.length)
    (h : scanBuf ++ rest = o.padA ++ (req1Hash (receiverSecret c o) ++ t)) :
    scanForReq1 c (receiverSecret c o) scanBuf req1Pos =
      identify c (receiverSecret c o) scanBuf o.padA.1.length := by
  unfold scanForReq1
  rw [find_req1 hknown hpos (by omega) h]
  simp only
  rw [if_neg (by omega)]

theorem scanForReq1_at (hknown : Recognised c o) {scanBuf : Bytes} {req1Pos : Option ℕ}
    (hpos : req1Pos = none ∨
      req1Pos = some o.padA.1.length ∧ o.padA.1.length + 20 ≤ scanBuf.length)
    (h : scanBuf ++ rest = o.padA ++ (req1Hash (receiverSecret c o) ++
      (obfuscatedHash o.infoHash (receiverSecret c o) ++
        (crypt next (receiverDec c o) o.text ++ tail)))) :
    ReceiverStepAt c o tail (scanForReq1 c (receiverSecret c o) scanBuf req1Pos) rest := by
  by_cases hlen : scanBuf.length < o.padA.1.length + 40
  · obtain ⟨pos, hwaits, hpos'⟩ := scanForReq1_short hknown hpos hlen h
    rw [hwaits]
    exact .reads (.scanning hpos' h) (fun ⟨_, h⟩ => nomatch h) nofun
  · rw [scanForReq1_long hknown (hpos.imp_right And.left) (by omega) h]
    exact identify_at hknown (by omega) h

theorem done_waits {leftover : Bytes} {st : Receiving}
    (h : (receiverDone c o leftover).2 = .waits st) : Responding st := by
  rcases respond_cases c o.infoHash (receiverEnc c o)
    (skip next (receiverDec c o) (16 + o.padC.1.length + o.ia.length)) o.cryptoProvide leftover with
    ⟨negotiated, hwaits⟩ | ⟨e, hraises⟩
  · rw [receiverDone, hwaits] at h
    exact ⟨negotiated, (Outcome.waits.inj h).symm⟩
  · rw [receiverDone, hraises] at h
    cases h

/-- The first segment is the public value, and the receiver answers with its own. -/
theorem ReceiverAt.feed_publicKey {segment : Bytes}
    (hserves : ((mseReceive c).demand .publicKey).Serves segment)
    (h : ReceiverAt c o tail (.waits .publicKey) (segment ++ rest)) :
    ∃ st, (mseReceive c).feed .publicKey segment =
        ((dhKeypair c.privateKey).2 ++ c.padB, .waits st) ∧ ¬ Responding st ∧ st ≠ .publicKey ∧
      ReceiverAt c o tail (.waits st) rest := by
  cases h with
  | publicKey hrest =>
    have hlen : segment.length = (dhKeypair o.privateKey).2.length := by
      rw [length_dhKeypair]
      exact hserves
    rw [Offer.wire] at hrest
    have hsplit := List.append_inj hrest hlen
    rw [hsplit.1]
    exact ⟨_, rfl, (fun ⟨_, h⟩ => nomatch h), by simp, .scanning (Or.inl ⟨rfl, by simp⟩) hsplit.2⟩
  | done _ hout =>
    obtain ⟨_, h⟩ := done_waits hout.symm
    cases h

theorem ReceiverAt.feed_offer (hknown : Recognised c o) {st : Receiving} {segment : Bytes}
    (hst : st ≠ .publicKey) (hidle : ¬ Responding st)
    (h : ReceiverAt c o tail (.waits st) (segment ++ rest)) :
    ReceiverStepAt c o tail ((mseReceive c).feed st segment) rest := by
  cases h with
  | publicKey _ => exact absurd rfl hst
  | scanning hpos hrest =>
    rw [← List.append_assoc] at hrest
    apply scanForReq1_at hknown _ hrest
    rcases hpos with ⟨hnone, -⟩ | ⟨hsome, hle, -⟩
    · exact Or.inl hnone
    · refine Or.inr ⟨hsome, ?_⟩
      rw [List.length_append]
      omega
  | header _ hrest =>
    rw [← List.append_assoc] at hrest
    exact readOffer_at hrest
  | padding _ hrest =>
    rw [← List.append_assoc] at hrest
    exact readPadC_at hrest
  | payload _ hrest =>
    rw [← List.append_assoc] at hrest
    exact readPayload_at hrest
  | done _ hout => exact absurd (done_waits hout.symm) hidle

theorem ReceiverAt.feed_responding {n : Negotiated} {segment : Bytes}
    (hserves : ((mseReceive c).demand (.responding n)).Serves segment)
    (h : ReceiverAt c o tail (.waits (.responding n)) (segment ++ rest)) :
    ReceiverAt c o tail (.returns n) rest := by
  obtain rfl : segment = [] := hserves
  cases h with
  | done hrest hout => exact .returned hrest hout.symm

theorem ReceiverAt.feed (hknown : Recognised c o) {st : Receiving} {segment : Bytes}
    (hserves : ((mseReceive c).demand st).Serves segment)
    (h : ReceiverAt c o tail (.waits st) (segment ++ rest)) :
    ReceiverAt c o tail ((mseReceive c).feed st segment).2 rest := by
  by_cases hst : st = .publicKey
  · subst hst
    obtain ⟨st', hfeed, -, -, hnext⟩ := h.feed_publicKey hserves
    rwa [hfeed]
  · by_cases hidle : Responding st
    · obtain ⟨n, rfl⟩ := hidle
      exact h.feed_responding hserves
    · exact (h.feed_offer hknown hst hidle).receiverAt

theorem ReceiverAt.ready {st : Receiving} (h : ReceiverAt c o tail (.waits st) rest) :
    ((mseReceive c).demand st).Ready rest ∧
      (tail.length < rest.length ∨ ∃ negotiated, st = .responding negotiated) := by
  cases h with
  | publicKey hrest =>
    have hlen := congrArg List.length hrest
    simp only [Offer.wire, List.length_append, length_dhKeypair] at hlen
    exact ⟨ready_exactly (by omega), Or.inl (by omega)⟩
  | scanning hpos hrest =>
    have hhash : (obfuscatedHash o.infoHash (receiverSecret c o)).length = 20 := by
      simp [obfuscatedHash]
    have hreq1 : (req1Hash (receiverSecret c o)).length = 20 := Sha1.length_sha1 _
    have hlen := congrArg List.length hrest
    simp only [List.length_append, length_crypt, hhash, hreq1] at hlen
    have hlt : tail.length < rest.length := by omega
    exact ⟨ready_upTo (List.length_pos_iff.mp (by omega)), Or.inl hlt⟩
  | header hlt hrest =>
    have hlen := congrArg List.length hrest
    simp only [List.length_append, length_crypt, Offer.length_text] at hlen
    exact ⟨ready_upTo (List.length_pos_iff.mp (by omega)), Or.inl (by omega)⟩
  | padding hlt hrest =>
    have hlen := congrArg List.length hrest
    simp only [List.length_append, length_crypt, length_toBytes] at hlen
    exact ⟨ready_upTo (List.length_pos_iff.mp (by omega)), Or.inl (by omega)⟩
  | payload hlt hrest =>
    have hlen := congrArg List.length hrest
    simp only [List.length_append, length_crypt] at hlen
    exact ⟨ready_upTo (List.length_pos_iff.mp (by omega)), Or.inl (by omega)⟩
  | done hrest hout =>
    obtain ⟨negotiated, rfl⟩ := done_waits hout.symm
    exact ⟨ready_drained rest, Or.inr ⟨negotiated, rfl⟩⟩

end Receiver

def receiverNegotiated (c : ReceiverCall) (o : Offer) (cryptoSelect : ℕ) (leftover : Bytes) :
    Negotiated :=
  let dec := skip next (receiverDec c o) o.text.length
  ⟨cryptoSelect,
    if cryptoSelect = cryptoRc4 then
      ⟨.encrypted (skip next (receiverEnc c o) (14 + c.padD.1.length))
        (skip next dec leftover.length) (crypt next dec leftover), true, some o.infoHash⟩
    else ⟨.plaintext, false, some o.infoHash⟩⟩

theorem receiverDone_ok {c : ReceiverCall} {o : Offer} {cryptoSelect : ℕ}
    (hsel : selectCrypto c.policy o.cryptoProvide = .ok cryptoSelect) (leftover : Bytes) :
    receiverDone c o leftover = (crypt next (receiverEnc c o) (responseText cryptoSelect c.padD),
      .waits (.responding (receiverNegotiated c o cryptoSelect leftover))) := by
  simp only [receiverDone, respond, hsel, receiverNegotiated, process_fst, process_snd,
    length_responseText, Offer.length_text]

section Results

variable {tail rest : Bytes}

theorem receiver_negotiated {c : ReceiverCall} {o : Offer} {cryptoSelect : ℕ} {n : Negotiated}
    (hsel : selectCrypto c.policy o.cryptoProvide = .ok cryptoSelect)
    (h : ReceiverAt c o tail (.returns n) rest) :
    ∃ leftover, leftover ++ rest = tail ∧ n = receiverNegotiated c o cryptoSelect leftover := by
  cases h with
  | done _ hout =>
    rw [receiverDone_ok hsel] at hout
    cases hout
  | @returned leftover _ _ hrest hwaits =>
    rw [receiverDone_ok hsel] at hwaits
    exact ⟨leftover, hrest, (Receiving.responding.inj (Outcome.waits.inj hwaits)).symm⟩

theorem receiver_not_raises {c : ReceiverCall} {o : Offer} {cryptoSelect : ℕ} {e : Failure}
    (hsel : selectCrypto c.policy o.cryptoProvide = .ok cryptoSelect) :
    ¬ ReceiverAt c o tail (.raises e) rest := by
  intro h
  cases h with
  | done _ hout =>
    rw [receiverDone_ok hsel] at hout
    cases hout

theorem selectCrypto_ok {policy : EncryptionPolicy} {provide cryptoSelect : ℕ}
    (h : selectCrypto policy provide = .ok cryptoSelect) :
    cryptoSelect = cryptoRc4 ∨ cryptoSelect = cryptoPlaintext := by
  unfold selectCrypto at h
  cases policy with
  | forced =>
    simp only at h
    split at h <;> cases h
    exact Or.inl rfl
  | disabled =>
    simp only at h
    split at h <;> cases h
    exact Or.inr rfl
  | preferred =>
    simp only at h
    split at h
    · cases h
      exact Or.inl rfl
    · split at h <;> cases h
      exact Or.inr rfl

end Results

end MseWire
