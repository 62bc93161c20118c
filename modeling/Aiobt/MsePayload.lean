import Aiobt.MseWire

/-! # The payload behind a handshake

What the returned stream yields of the bytes that the remote writes behind its handshake. -/
namespace MsePayload

open ByteStrings BigEndian DiffieHellman StreamCiphers Rc4 SegmentedReads MseStreams MseHandshake
  MseWire

section Initiator

variable {c : InitiatorCall} {a : Answer} {tail rest segment : Bytes} {st st' : Initiating}

def vcMissing (a : Answer) : Initiating → ℕ
  | .publicKey => 96 + a.padB.1.length + 8
  | .scanning _ _ scanBuf => a.padB.1.length + 8 - scanBuf.length
  | _ => 0

theorem readResponse_vcMissing {policy : EncryptionPolicy} {enc dec : RC4} {data : Bytes}
    (h : readResponse policy enc dec data = .waits st') : vcMissing a st' = 0 := by
  unfold readResponse at h
  split at h
  · obtain rfl := Outcome.waits.inj h
    rfl
  · simp only at h
    split at h
    · cases h
    · unfold readPadD at h
      split at h
      · obtain rfl := Outcome.waits.inj h
        rfl
      · exact absurd h (initiatorResult_finished _ _ _ _ _ _)

theorem vc_short (hmarker : FirstBehind (crypt next (initiatorDec c a) vc) a.padB)
    (hserves : ((mseInitiate c).demand st).Serves segment)
    (h : InitiatorAt c a tail (.waits st) (segment ++ rest))
    (hlt : segment.length < vcMissing a st) :
    ∃ st', ((mseInitiate c).feed st segment).2 = .waits st' ∧
      vcMissing a st' = vcMissing a st - segment.length := by
  cases h with
  | publicKey _ =>
    have hlen : segment.length = 96 := hserves
    refine ⟨_, rfl, ?_⟩
    simp only [vcMissing, hlen, List.length_nil]
    omega
  | scanning _ hrest =>
    simp only [vcMissing] at hlt
    rw [← List.append_assoc] at hrest
    refine ⟨_, scanForVc_short hmarker (by rw [List.length_append]; omega) hrest, ?_⟩
    simp only [vcMissing, List.length_append]
    omega
  | header _ _ => exact absurd hlt (Nat.not_lt_zero _)
  | padding _ _ => exact absurd hlt (Nat.not_lt_zero _)
  | done _ ho => exact absurd ho.symm (initiatorResult_finished _ _ _ _ _ _)

theorem vc_long (hmarker : FirstBehind (crypt next (initiatorDec c a) vc) a.padB)
    (hserves : ((mseInitiate c).demand st).Serves segment)
    (h : InitiatorAt c a tail (.waits st) (segment ++ rest))
    (hle : vcMissing a st ≤ segment.length)
    (hfeed : ((mseInitiate c).feed st segment).2 = .waits st') : vcMissing a st' = 0 := by
  cases h with
  | publicKey _ =>
    have hlen : segment.length = 96 := hserves
    simp only [vcMissing] at hle
    omega
  | scanning hbuf hrest =>
    simp only [vcMissing] at hle
    rw [← List.append_assoc] at hrest
    have hlong := scanForVc_long hmarker (by rw [List.length_append]; omega) hrest
    exact readResponse_vcMissing (hlong.symm.trans hfeed)
  | header _ _ => exact readResponse_vcMissing hfeed
  | padding _ _ =>
    simp only [mseInitiate, readPadD] at hfeed
    split at hfeed
    · obtain rfl := Outcome.waits.inj hfeed
      rfl
    · exact absurd hfeed (initiatorResult_finished _ _ _ _ _ _)
  | done _ ho => exact absurd ho.symm (initiatorResult_finished _ _ _ _ _ _)

/-- Behind the marker no read goes past the handshake. -/
theorem vc_exact (hserves : ((mseInitiate c).demand st).Serves segment)
    (h : InitiatorAt c a tail (.waits st) (segment ++ rest)) (hzero : vcMissing a st = 0) :
    tail.length ≤ rest.length := by
  cases h with
  | publicKey _ =>
    simp only [vcMissing] at hzero
    omega
  | scanning hbuf _ =>
    simp only [vcMissing] at hzero
    omega
  | @header data _ hdata hrest =>
    have hle : segment.length ≤ 14 - data.length := hserves.1
    have hlen := congrArg List.length hrest
    simp only [List.length_append, length_crypt, length_responseText] at hlen
    omega
  | @padding data _ hdata hrest =>
    have hle : segment.length ≤ a.padD.1.length - data.length := hserves.1
    have hlen := congrArg List.length hrest
    simp only [List.length_append, length_crypt] at hlen
    omega
  | done _ ho => exact absurd ho.symm (initiatorResult_finished _ _ _ _ _ _)

theorem initiator_run {segments : List Bytes} {out : InitiatorOutcome}
    (hmarker : FirstBehind (crypt next (initiatorDec c a) vc) a.padB)
    (hwire : segments.flatten ++ rest = a.wire (initiatorSecret c a) c.infoHash tail)
    (hrun : run (mseInitiate c) (.waits .publicKey) segments = some out) :
    InitiatorAt c a tail out rest :=
  run_invariant (P := InitiatorAt c a tail) (fun _ _ _ hserves h => h.feed hmarker hserves) hrun
    (.publicKey hwire)

/-- The initiator leaves the payload alone unless the segment with the end of the encrypted
verification constant brings some of it. -/
theorem initiator_overshoots {segments : List Bytes} {out : InitiatorOutcome}
    (hmarker : FirstBehind (crypt next (initiatorDec c a) vc) a.padB)
    (hwire : segments.flatten ++ rest = a.wire (initiatorSecret c a) c.infoHash tail)
    (hrun : run (mseInitiate c) (.waits .publicKey) segments = some out) :
    tail.length ≤ rest.length ↔ overshoots (96 + a.padB.1.length + 8)
      (96 + a.padB.1.length + 14 + a.padD.1.length) segments = false := by
  have h := run_overshoots (P := InitiatorAt c a tail) (fun _ => False) (vcMissing a) tail.length
    (fun _ _ _ hserves h => h.feed hmarker hserves) (fun _ _ _ h => h.ready.2.le)
    (fun _ _ hidle => hidle.elim)
    (fun _ _ _ hserves h hlt => by
      obtain ⟨st', hfeed, hmissing⟩ := vc_short hmarker hserves h hlt
      exact ⟨st', hfeed, hmissing, not_false⟩)
    (fun _ _ _ _ hserves h => vc_long hmarker hserves h)
    (fun _ _ _ hserves h _ => vc_exact hserves h) not_false hrun (.publicKey hwire)
  have hlen : (segments.flatten ++ rest).length - tail.length =
      96 + a.padB.1.length + 14 + a.padD.1.length := by
    rw [hwire, Answer.length_wire]
    omega
  rwa [hlen] at h

end Initiator

section Receiver

variable {c : ReceiverCall} {o : Offer} {tail rest segment : Bytes} {st st' : Receiving}

def req1Missing (o : Offer) : Receiving → ℕ
  | .publicKey => 96 + o.padA.1.length + 40
  | .scanning _ scanBuf _ => o.padA.1.length + 40 - scanBuf.length
  | _ => 0

theorem readPayload_req1Missing {matchedHash data : Bytes} {enc dec : RC4} {provide iaLen : ℕ}
    (h : (readPayload c matchedHash enc dec provide iaLen data).2 = .waits st') :
    req1Missing o st' = 0 := by
  unfold readPayload at h
  split at h
  · obtain rfl := Outcome.waits.inj h
    rfl
  · rcases respond_cases c matchedHash enc (dec.process (data.take iaLen)).2 provide
      (data.drop iaLen) with ⟨negotiated, hwaits⟩ | ⟨e, hraises⟩
    · rw [hwaits] at h
      obtain rfl := Outcome.waits.inj h
      rfl
    · rw [hraises] at h
      cases h

theorem readPadC_req1Missing {matchedHash data : Bytes} {enc dec : RC4} {provide padCLen : ℕ}
    (h : (readPadC c matchedHash enc dec provide padCLen data).2 = .waits st') :
    req1Missing o st' = 0 := by
  unfold readPadC at h
  simp only at h
  split at h
  · obtain rfl := Outcome.waits.inj h
    rfl
  · exact readPayload_req1Missing h

theorem readOffer_req1Missing {matchedHash data : Bytes} {enc dec : RC4}
    (h : (readOffer c matchedHash enc dec data).2 = .waits st') : req1Missing o st' = 0 := by
  unfold readOffer at h
  split at h
  · obtain rfl := Outcome.waits.inj h
    rfl
  · simp only at h
    split at h
    · cases h
    · exact readPadC_req1Missing h

theorem identify_req1Missing {secret scanBuf : Bytes} {pos : ℕ}
    (h : (identify c secret scanBuf pos).2 = .waits st') : req1Missing o st' = 0 := by
  unfold identify at h
  split at h
  · cases h
  · exact readOffer_req1Missing h

theorem req1_short (hknown : Recognised c o) (hserves : ((mseReceive c).demand st).Serves segment)
    (h : ReceiverAt c o tail (.waits st) (segment ++ rest))
    (hlt : segment.length < req1Missing o st) :
    ∃ st', ((mseReceive c).feed st segment).2 = .waits st' ∧
      req1Missing o st' = req1Missing o st - segment.length ∧ ¬ Responding st' := by
  cases h with
  | publicKey _ =>
    have hlen : segment.length = 96 := hserves
    refine ⟨_, rfl, ?_, fun ⟨_, h⟩ => nomatch h⟩
    simp only [req1Missing, hlen, List.length_nil]
    omega
  | @scanning scanBuf req1Pos _ hpos hrest =>
    simp only [req1Missing] at hlt
    rw [← List.append_assoc] at hrest
    have hpos' : req1Pos = none ∨ req1Pos = some o.padA.1.length ∧
        o.padA.1.length + 20 ≤ (scanBuf ++ segment).length := by
      rw [List.length_append]
      rcases hpos with ⟨hnone, -⟩ | ⟨hsome, hle, -⟩
      · exact Or.inl hnone
      · exact Or.inr ⟨hsome, by omega⟩
    obtain ⟨pos, hwaits, -⟩ :=
      scanForReq1_short hknown hpos' (by rw [List.length_append]; omega) hrest
    refine ⟨_, congrArg Prod.snd hwaits, ?_, fun ⟨_, h⟩ => nomatch h⟩
    simp only [req1Missing, List.length_append]
    omega
  | header _ _ => exact absurd hlt (Nat.not_lt_zero _)
  | padding _ _ => exact absurd hlt (Nat.not_lt_zero _)
  | payload _ _ => exact absurd hlt (Nat.not_lt_zero _)
  | done _ hout =>
    obtain ⟨_, rfl⟩ := done_waits hout.symm
    exact absurd hlt (Nat.not_lt_zero _)

theorem req1_long (hknown : Recognised c o) (hserves : ((mseReceive c).demand st).Serves segment)
    (h : ReceiverAt c o tail (.waits st) (segment ++ rest))
    (hle : req1Missing o st ≤ segment.length)
    (hfeed : ((mseReceive c).feed st segment).2 = .waits st') : req1Missing o st' = 0 := by
  cases h with
  | publicKey _ =>
    have hlen : segment.length = 96 := hserves
    simp only [req1Missing] at hle
    omega
  | scanning hpos hrest =>
    simp only [req1Missing] at hle
    rw [← List.append_assoc] at hrest
    have hlong := scanForReq1_long hknown (hpos.imp And.left And.left)
      (by rw [List.length_append]; omega) hrest
    exact identify_req1Missing ((congrArg Prod.snd hlong).symm.trans hfeed)
  | header _ _ => exact readOffer_req1Missing hfeed
  | padding _ _ => exact readPadC_req1Missing hfeed
  | payload _ _ => exact readPayload_req1Missing hfeed
  | done _ hout =>
    obtain ⟨_, rfl⟩ := done_waits hout.symm
    cases hfeed

/-- Behind the obfuscated hash no read goes past the handshake. -/
theorem req1_exact (hserves : ((mseReceive c).demand st).Serves segment)
    (h : ReceiverAt c o tail (.waits st) (segment ++ rest)) (hst : ¬ Responding st)
    (hzero : req1Missing o st = 0) : tail.length ≤ rest.length := by
  cases h with
  | publicKey _ =>
    simp only [req1Missing] at hzero
    omega
  | scanning hpos _ =>
    simp only [req1Missing] at hzero
    omega
  | @header data _ hdata hrest =>
    have hle : segment.length ≤ 14 - data.length := hserves.1
    have hlen := congrArg List.length hrest
    simp only [List.length_append, length_crypt, Offer.length_text] at hlen
    omega
  | @padding data _ hdata hrest =>
    have hle : segment.length ≤ o.padC.1.length + 2 - data.length := hserves.1
    have hlen := congrArg List.length hrest
    simp only [List.length_append, length_crypt, length_toBytes] at hlen
    omega
  | @payload data _ hdata hrest =>
    have hle : segment.length ≤ o.ia.length - data.length := hserves.1
    have hlen := congrArg List.length hrest
    simp only [List.length_append, length_crypt] at hlen
    omega
  | done _ hout => exact absurd (done_waits hout.symm) hst

theorem receiver_run {segments : List Bytes} {out : Outcome Receiving Negotiated Failure}
    (hknown : Recognised c o)
    (hwire : segments.flatten ++ rest = o.wire (receiverSecret c o) tail)
    (hrun : run (mseReceive c) (.waits .publicKey) segments = some out) :
    ReceiverAt c o tail out rest :=
  run_invariant (P := ReceiverAt c o tail) (fun _ _ _ hserves h => h.feed hknown hserves) hrun
    (.publicKey hwire)

/-- The receiver leaves the payload alone unless the segment with the end of the obfuscated hash
brings some of it. -/
theorem receiver_overshoots {segments : List Bytes} {out : Outcome Receiving Negotiated Failure}
    (hknown : Recognised c o)
    (hwire : segments.flatten ++ rest = o.wire (receiverSecret c o) tail)
    (hrun : run (mseReceive c) (.waits .publicKey) segments = some out) :
    tail.length ≤ rest.length ↔ overshoots (96 + o.padA.1.length + 40)
      (96 + o.padA.1.length + 40 + o.text.length) segments = false := by
  have hstart : ¬ Responding .publicKey := by
    rintro ⟨_, h⟩
    cases h
  have h := run_overshoots (P := ReceiverAt c o tail) Responding (req1Missing o) tail.length
    (fun _ _ _ hserves h => h.feed hknown hserves) (fun _ _ hst h => (h.ready.2.resolve_right hst).le)
    (by
      rintro _ segment ⟨negotiated, rfl⟩ hserves
      exact ⟨hserves, fun _ h => by cases h⟩)
    (fun _ _ _ hserves h => req1_short hknown hserves h)
    (fun _ _ _ _ hserves h => req1_long hknown hserves h)
    (fun _ _ _ hserves h => req1_exact hserves h) hstart hrun (.publicKey hwire)
  have hlen : (segments.flatten ++ rest).length - tail.length =
      96 + o.padA.1.length + 40 + o.text.length := by
    rw [hwire, Offer.length_wire]
    omega
  rwa [hlen] at h

end Receiver

def sendPayload (cryptoSelect : ℕ) (cipher : RC4) (payload : Bytes) : Bytes :=
  if cryptoSelect = cryptoRc4 then crypt next cipher payload else payload

section Delivery

variable {tail rest payload : Bytes}

/-- Where plaintext is selected, the initiator either has to read more or returns. -/
theorem initiator_outcome {c : InitiatorCall} {a : Answer} {out : InitiatorOutcome}
    (hpolicy : c.policy ≠ .forced) (hsel : a.cryptoSelect = cryptoPlaintext)
    (h : InitiatorAt c a tail out rest) :
    (∃ st, out = .waits st ∧ tail.length < rest.length) ∨
      ∃ leftover, leftover ++ rest = tail ∧
        out = .returns ⟨cryptoPlaintext, .plaintext, false, none⟩ := by
  cases out with
  | waits st => exact Or.inl ⟨st, rfl, h.ready.2⟩
  | returns n =>
    cases h with
    | @done leftover _ _ hrest hout =>
      rw [initiatorResult, hsel, if_neg (by decide), if_pos rfl, if_neg hpolicy] at hout
      exact Or.inr ⟨leftover, hrest, hout⟩
  | raises e =>
    cases h with
    | done _ hout =>
      rw [initiatorResult, hsel, if_neg (by decide), if_pos rfl, if_neg hpolicy] at hout
      cases hout

/-- Of a plaintext payload the stream yields what the handshake left. -/
theorem delivers_plaintext {leftover : Bytes} (data : Bytes) (hrest : leftover ++ rest = payload) :
    Delivers .plaintext rest (data ++ payload) ↔ data = [] ∧ payload.length ≤ rest.length := by
  rw [delivers_iff, MSEStream.unread]
  have hlen := congrArg List.length hrest
  rw [List.length_append] at hlen
  constructor
  · intro h
    have hdata := congrArg List.length h
    rw [List.length_append] at hdata
    exact ⟨List.eq_nil_of_length_eq_zero (by omega), by omega⟩
  · rintro ⟨rfl, hle⟩
    have hnil : leftover = [] := List.eq_nil_of_length_eq_zero (by omega)
    rw [← hrest, hnil, List.nil_append, List.nil_append]

theorem delivers_encrypted {leftover data : Bytes} {enc dec : RC4}
    (hrest : leftover ++ rest = crypt next dec payload) :
    Delivers (.encrypted enc (skip next dec leftover.length) (crypt next dec leftover)) rest
      (data ++ payload) ↔ data = [] := by
  rw [delivers_iff, MSEStream.unread, ← crypt_append, hrest, crypt_crypt]
  constructor
  · intro h
    have hlen := congrArg List.length h
    rw [List.length_append] at hlen
    exact List.eq_nil_of_length_eq_zero (by omega)
  · rintro rfl
    rfl

end Delivery

def someKey : PrivateKey := (Vector.replicate 19 0).push 3

def noPad : Pad := ⟨[], nil_fits⟩

def someHash : Bytes := List.replicate 20 5

theorem firstBehind_nil (marker : Bytes) : FirstBehind marker [] :=
  fun i hi => absurd hi (Nat.not_lt_zero i)

theorem serves_upTo {n : ℕ} {segment : Bytes} (hpos : 0 < segment.length) (hle : segment.length ≤ n) :
    (Demand.upTo n).Serves segment :=
  ⟨hle, fun hnil => absurd (congrArg List.length hnil) (by rw [List.length_nil]; omega)⟩

def someCall : InitiatorCall := ⟨someHash, .preferred, someKey, noPad, noPad⟩

def plainAnswer : Answer := ⟨someKey, noPad, noPad, cryptoPlaintext, by decide⟩

def plainResponse : Bytes :=
  crypt next (initiatorDec someCall plainAnswer) (responseText cryptoPlaintext [])

theorem plain_wire (tail : Bytes) :
    plainAnswer.wire (initiatorSecret someCall plainAnswer) someHash tail =
      (dhKeypair someKey).2 ++ (plainResponse ++ tail) := by
  unfold Answer.wire plainResponse initiatorDec
  rfl

theorem initiator_two (extra : Bytes) (hextra : extra.length ≤ 1000) :
    ∃ out, run (mseInitiate someCall) (.waits .publicKey)
      [(dhKeypair someKey).2, plainResponse ++ extra] = some out := by
  have hkey : ((mseInitiate someCall).demand .publicKey).Serves (dhKeypair someKey).2 :=
    length_dhKeypair someKey
  have hlen : (plainResponse ++ extra).length = 14 + extra.length := by
    simp [plainResponse]
  rw [run_waits hkey]
  exact ⟨_, run_one (serves_upTo (by omega) (by omega))⟩

def someReceiver : ReceiverCall := ⟨.bytes someHash, .preferred, someKey, noPad, noPad⟩

def someOffer (cryptoProvide : ℕ) (hprovide : cryptoProvide < 256 ^ 4) (ia : Bytes)
    (hia : ia.length < 256 ^ 2) : Offer :=
  ⟨someKey, someHash, noPad, noPad, cryptoProvide, hprovide, ia, hia⟩

theorem someOffer_recognised (cryptoProvide : ℕ) (hprovide : cryptoProvide < 256 ^ 4) (ia : Bytes)
    (hia : ia.length < 256 ^ 2) :
    Recognised someReceiver (someOffer cryptoProvide hprovide ia hia) where
  marker := firstBehind_nil _
  known := List.mem_singleton_self someHash
  distinct := fun _ hmem _ => List.mem_singleton.mp hmem

/-- The receiver reads the public value, then all the rest, and returns. -/
theorem receiver_two {c : ReceiverCall} {o : Offer} {cryptoSelect : ℕ} (tail : Bytes)
    (hknown : Recognised c o) (hsel : selectCrypto c.policy o.cryptoProvide = .ok cryptoSelect)
    (hlen : o.padA.1.length + 40 + o.text.length + tail.length ≤ 1024) :
    ∃ segments n, segments.flatten ++ [] = o.wire (receiverSecret c o) tail ∧
      run (mseReceive c) (.waits .publicKey) segments = some (.returns n) := by
  have hkey : ((mseReceive c).demand .publicKey).Serves (dhKeypair o.privateKey).2 :=
    length_dhKeypair o.privateKey
  obtain ⟨block, hblock⟩ : ∃ block, o.wire (receiverSecret c o) tail =
      (dhKeypair o.privateKey).2 ++ block := ⟨_, rfl⟩
  have hlong : block.length = o.padA.1.length + 40 + o.text.length + tail.length := by
    have h := o.length_wire (receiverSecret c o) tail
    rw [hblock, List.length_append, length_dhKeypair] at h
    omega
  obtain ⟨out, hrun⟩ : ∃ out, run (mseReceive c) (.waits .publicKey)
      [(dhKeypair o.privateKey).2, block] = some out := by
    rw [run_waits hkey]
    exact ⟨_, run_one (serves_upTo (by have := o.length_text; omega) (by omega))⟩
  have hflatten : [(dhKeypair o.privateKey).2, block].flatten ++ [] =
      o.wire (receiverSecret c o) tail := by
    rw [hblock]
    simp
  have hat := receiver_run hknown hflatten hrun
  cases out with
  | returns n => exact ⟨_, n, hflatten, hrun⟩
  | raises e => exact absurd hat (receiver_not_raises hsel)
  | waits st =>
    rcases hat.ready.2 with hlt | ⟨n, rfl⟩
    · exact absurd hlt (Nat.not_lt_zero _)
    · refine ⟨_, n, ?_, run_append hrun (run_one rfl)⟩
      rw [List.flatten_append, ← hflatten]
      simp

/-- Where plaintext is selected, the stream yields the payload if and only if no segment brings some
of it together with the end of what the scan looks for; for the initiator and for the receiver. -/
theorem plaintext_payload_delivered {payload rest : Bytes} {segments : List Bytes} :
    (∀ (c : InitiatorCall) (a : Answer) (out : InitiatorOutcome),
      c.policy ≠ .forced → a.cryptoSelect = cryptoPlaintext →
      FirstBehind (crypt next (initiatorDec c a) vc) a.padB →
      segments.flatten ++ rest = a.wire (initiatorSecret c a) c.infoHash payload →
      run (mseInitiate c) (.waits .publicKey) segments = some out →
      out.Meets (mseInitiate c) rest fun n =>
        n.result.stream = .plaintext ∧ (Delivers n.result.stream rest payload ↔
          overshoots (96 + a.padB.1.length + 8) (96 + a.padB.1.length + 14 + a.padD.1.length)
            segments = false)) ∧
      ∀ (c : ReceiverCall) (o : Offer) (out : Outcome Receiving Negotiated Failure),
        Recognised c o → selectCrypto c.policy o.cryptoProvide = .ok cryptoPlaintext →
        segments.flatten ++ rest = o.wire (receiverSecret c o) payload →
        run (mseReceive c) (.waits .publicKey) segments = some out →
        out.Meets (mseReceive c) rest fun n =>
          n.result.stream = .plaintext ∧ (Delivers n.result.stream rest payload ↔
            overshoots (96 + o.padA.1.length + 40) (96 + o.padA.1.length + 40 + o.text.length)
              segments = false) := by
  have hne : cryptoPlaintext ≠ cryptoRc4 := by decide
  constructor
  · intro c a out hpolicy hsel hmarker hwire hrun
    have hat := initiator_run hmarker hwire hrun
    have hleft := initiator_overshoots hmarker hwire hrun
    rcases initiator_outcome hpolicy hsel hat with ⟨st, rfl, -⟩ | ⟨leftover, hrest, rfl⟩
    · exact hat.ready.1
    · rw [← hleft]
      refine ⟨rfl, (delivers_plaintext [] hrest).trans ?_⟩
      simp
  · intro c o out hknown hsel hwire hrun
    have hat := receiver_run hknown hwire hrun
    have hleft := receiver_overshoots hknown hwire hrun
    cases out with
    | waits st => exact hat.ready.1
    | raises e => exact absurd hat (receiver_not_raises hsel)
    | returns n =>
      obtain ⟨leftover, hrest, rfl⟩ := receiver_negotiated hsel hat
      rw [← hleft]
      refine ⟨rfl, (delivers_plaintext [] hrest).trans ?_⟩
      simp

theorem plaintext_payload_lost :
    run (mseInitiate someCall) (.waits .publicKey)
      [(dhKeypair someKey).2, plainResponse ++ [19]] =
        some (.returns ⟨cryptoPlaintext, .plaintext, false, none⟩) ∧
      [(dhKeypair someKey).2, plainResponse ++ [19]].flatten ++ [] =
        plainAnswer.wire (initiatorSecret someCall plainAnswer) someHash [19] ∧
      ¬ Delivers .plaintext [] [19] := by
  have hwire : [(dhKeypair someKey).2, plainResponse ++ [19]].flatten ++ [] =
      plainAnswer.wire (initiatorSecret someCall plainAnswer) someHash [19] := by
    rw [plain_wire]
    simp
  obtain ⟨out, hrun⟩ := initiator_two [19] (by decide)
  have hat := initiator_run (firstBehind_nil _) hwire hrun
  rcases initiator_outcome (by decide) rfl hat with ⟨st, -, hlt⟩ | ⟨leftover, -, rfl⟩
  · simp at hlt
  · refine ⟨hrun, hwire, ?_⟩
    rw [delivers_iff]
    simp [MSEStream.unread]

/-- With the answer in a segment of its own, and an offer without payload, all is delivered. -/
theorem plaintext_payload_after :
    (∃ n, run (mseInitiate someCall) (.waits .publicKey) [(dhKeypair someKey).2, plainResponse] =
      some (.returns n) ∧ Delivers n.result.stream [19] [19]) ∧
      ∃ segments n, run (mseReceive someReceiver) (.waits .publicKey) segments = some (.returns n) ∧
        Delivers n.result.stream [] [] := by
  constructor
  · obtain ⟨out, hrun⟩ := initiator_two [] (by decide)
    rw [List.append_nil] at hrun
    have hwire : [(dhKeypair someKey).2, plainResponse].flatten ++ [19] =
        plainAnswer.wire (initiatorSecret someCall plainAnswer) someHash [19] := by
      rw [plain_wire]
      simp
    have hlen : plainResponse.length = 14 := by simp [plainResponse]
    have hmeets := plaintext_payload_delivered.1 someCall plainAnswer out (by decide) rfl
      (firstBehind_nil _) hwire hrun
    have hat := initiator_run (firstBehind_nil _) hwire hrun
    rcases initiator_outcome (by decide) rfl hat with ⟨st, -, hlt⟩ | ⟨leftover, -, rfl⟩
    · simp at hlt
    · refine ⟨_, hrun, hmeets.2.mpr ?_⟩
      simp [overshoots, hlen, plainAnswer, noPad]
  · have hknown := someOffer_recognised 1 (by decide) [] (by decide)
    obtain ⟨segments, n, hwire, hrun⟩ := receiver_two [] hknown rfl (by simp [someOffer, noPad])
    have hmeets := plaintext_payload_delivered.2 someReceiver _ _ hknown rfl hwire hrun
    have hshort := (receiver_overshoots hknown hwire hrun).mp le_rfl
    exact ⟨segments, n, hrun, hmeets.2.mpr hshort⟩

/-- Of a conforming initiator the receiver's stream yields the initial payload and what follows it
if and only if the initial payload is empty and, where plaintext was selected, no segment brings
bytes behind the handshake together with the end of the obfuscated hash. -/
theorem initial_payload_delivered (c : ReceiverCall) (o : Offer) (payload : Bytes)
    {cryptoSelect : ℕ} {rest : Bytes} {segments : List Bytes} {out : Outcome Receiving Negotiated Failure}
    (hknown : Recognised c o)
    (hsel : selectCrypto c.policy o.cryptoProvide = .ok cryptoSelect)
    (hwire : segments.flatten ++ rest = o.wire (receiverSecret c o)
      (sendPayload cryptoSelect (skip next (receiverDec c o) o.text.length) payload))
    (hrun : run (mseReceive c) (.waits .publicKey) segments = some out) :
    out.Meets (mseReceive c) rest fun n =>
      n.cryptoSelect = cryptoSelect ∧ (Delivers n.result.stream rest (o.ia ++ payload) ↔
        o.ia = [] ∧ (cryptoSelect = cryptoRc4 ∨ overshoots (96 + o.padA.1.length + 40)
          (96 + o.padA.1.length + 40 + o.text.length) segments = false)) := by
  have hat := receiver_run hknown hwire hrun
  have hleft := receiver_overshoots hknown hwire hrun
  cases out with
  | waits st => exact hat.ready.1
  | raises e => exact absurd hat (receiver_not_raises hsel)
  | returns n =>
    obtain ⟨leftover, hrest, rfl⟩ := receiver_negotiated hsel hat
    refine ⟨rfl, ?_⟩
    rw [← hleft]
    rcases selectCrypto_ok hsel with rfl | rfl
    · rw [sendPayload, if_pos rfl] at hrest
      simp only [receiverNegotiated, if_true, true_or, and_true]
      exact delivers_encrypted hrest
    · have hne : cryptoPlaintext ≠ cryptoRc4 := by decide
      rw [sendPayload, if_neg hne] at hrest ⊢
      simp only [receiverNegotiated, hne, false_or]
      exact delivers_plaintext o.ia hrest

def rc4Offer (ia : Bytes) (hia : ia.length < 256 ^ 2) : Offer := someOffer 3 (by decide) ia hia

theorem initial_payload_lost :
    ∃ segments n, segments.flatten ++ [] = (rc4Offer [19] (by decide)).wire
        (receiverSecret someReceiver (rc4Offer [19] (by decide))) [] ∧
      run (mseReceive someReceiver) (.waits .publicKey) segments = some (.returns n) ∧
      ¬ Delivers n.result.stream [] [19] := by
  have hsel : selectCrypto .preferred 3 = .ok cryptoRc4 := rfl
  have hknown := someOffer_recognised 3 (by decide) [19] (by decide)
  obtain ⟨segments, n, hwire, hrun⟩ := receiver_two [] hknown hsel (by simp [someOffer, noPad])
  refine ⟨segments, n, hwire, hrun, ?_⟩
  have hat := receiver_run hknown hwire hrun
  obtain ⟨leftover, hrest, rfl⟩ := receiver_negotiated hsel hat
  obtain rfl : leftover = [] := by simpa using hrest
  rw [delivers_iff]
  simp [receiverNegotiated, MSEStream.unread]

theorem initial_payload_empty :
    ∃ segments n, run (mseReceive someReceiver) (.waits .publicKey) segments = some (.returns n) ∧
      Delivers n.result.stream [] [] := by
  have hsel : selectCrypto .preferred 3 = .ok cryptoRc4 := rfl
  have hknown := someOffer_recognised 3 (by decide) [] (by decide)
  obtain ⟨segments, n, hwire, hrun⟩ := receiver_two [] hknown hsel (by simp [someOffer, noPad])
  have hmeets := initial_payload_delivered someReceiver (rc4Offer [] (by decide)) [] hknown hsel
    hwire hrun
  exact ⟨segments, n, hrun, hmeets.2.mpr ⟨rfl, Or.inl rfl⟩⟩

end MsePayload
