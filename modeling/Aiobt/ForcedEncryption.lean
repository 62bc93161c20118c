import Aiobt.MsePayload
import Aiobt.PeerConnections

/-! # Connections with forced encryption

A peer only runs on a stream that RC4 was negotiated for, and handshakes and messages are only
written to the transport as that cipher encrypts them, whatever the remote sends. -/
namespace ForcedEncryption

open ByteStrings BigEndian DiffieHellman StreamCiphers Rc4 SegmentedReads MseStreams MseHandshake BtHandshake
  MseWire MsePayload PeerConnections

def payload (log : List Write) : Bytes :=
  ((log.filter fun w => w.content ≠ .mse).map Write.data).flatten

/-- What is not part of an MSE handshake goes out as the cipher encrypts it, one write behind the
other. -/
def EncryptedUnder (key : RC4) (log : List Write) : Prop :=
  ∀ before w after, log = before ++ w :: after → w.content ≠ .mse →
    w.wire = crypt next (skip next key (payload before).length) w.data

def OnlyMse (log : List Write) : Prop := ∀ w ∈ log, w.content = .mse

variable {key : RC4} {log more : List Write} {w : Write}

theorem payload_append (log more : List Write) : payload (log ++ more) = payload log ++ payload more := by
  simp [payload]

theorem OnlyMse.payload (h : OnlyMse log) : payload log = [] := by
  have hnone : (log.filter fun w => w.content ≠ .mse) = [] := by
    apply List.filter_eq_nil_iff.mpr
    intro w hw hne
    exact of_decide_eq_true hne (h w hw)
  rw [ForcedEncryption.payload, hnone]
  rfl

theorem OnlyMse.append (h : OnlyMse log) (hmore : OnlyMse more) : OnlyMse (log ++ more) := by
  intro w hw
  rcases List.mem_append.mp hw with hw | hw
  · exact h w hw
  · exact hmore w hw

theorem onlyMse_mseWrite (b : Bytes) : OnlyMse (mseWrite b) := by
  intro w hw
  unfold mseWrite at hw
  split at hw
  · cases hw
  · obtain rfl := List.mem_singleton.mp hw
    rfl

theorem OnlyMse.encryptedUnder (h : OnlyMse log) (key : RC4) : EncryptedUnder key log := by
  rintro before w after rfl hw
  exact absurd (h w (List.mem_append_right _ List.mem_cons_self)) hw

theorem EncryptedUnder.snoc (h : EncryptedUnder key log)
    (hw : w.wire = crypt next (skip next key (payload log).length) w.data) :
    EncryptedUnder key (log ++ [w]) := by
  intro before x after hsplit hx
  rcases List.eq_nil_or_concat after with rfl | ⟨front, last, rfl⟩
  · obtain ⟨rfl, hlast⟩ := List.append_inj' hsplit rfl
    obtain rfl := List.singleton_inj.mp hlast
    exact hw
  · rw [List.concat_eq_append, ← List.cons_append, ← List.append_assoc] at hsplit
    obtain ⟨hfront, -⟩ := List.append_inj' hsplit rfl
    exact h before x front hfront hx

variable {IsKey : RC4 → Prop} {stream : PeerStream}

/-- The stream encrypts, with a key of the handshake, and goes on where the log stops. -/
def Secured (IsKey : RC4 → Prop) (stream : PeerStream) (log : List Write) : Prop :=
  ∃ key negotiated dec buffer, IsKey key ∧ negotiated.cryptoSelect = cryptoRc4 ∧
    negotiated.result.encrypted = true ∧ EncryptedUnder key log ∧
    stream = .mse negotiated (.encrypted (skip next key (payload log).length) dec buffer)

theorem Secured.write (h : Secured IsKey stream log) {content : Content} (hcontent : content ≠ .mse)
    (data : Bytes) : Secured IsKey (stream.write content data).2
      (log ++ [(stream.write content data).1]) := by
  obtain ⟨key, n, dec, buffer, hkey, hselect, henc, hlog, rfl⟩ := h
  have hsent : PeerStream.write content data
      (.mse n (.encrypted (skip next key (payload log).length) dec buffer)) =
      (⟨content, data, crypt next (skip next key (payload log).length) data⟩,
        .mse n (.encrypted (skip next (skip next key (payload log).length) data.length) dec
          buffer)) := by
    simp only [PeerStream.write, PeerStream.base, PeerStream.over, MSEStream.write, process_fst,
      process_snd]
  rw [hsent]
  refine ⟨key, n, dec, buffer, hkey, hselect, henc, hlog.snoc rfl, ?_⟩
  have hdata : payload [⟨content, data, crypt next (skip next key (payload log).length) data⟩] =
      data := by
    simp [payload, hcontent]
  rw [payload_append, hdata, List.length_append, skip_add]

def WritesWith (enc : RC4) (s : MSEStream) : Prop := ∃ dec buffer, s = .encrypted enc dec buffer

def CallWritesWith (enc : RC4) : ReadOutcome → Prop
  | .waits r => WritesWith enc r.stream
  | .returns (_, after) => WritesWith enc after
  | .raises _ => True

variable {enc : RC4} {s : MSEStream}

theorem readexactlyLoop_writesWith (enc dec : RC4) (buffer : Bytes) (n : ℕ) :
    CallWritesWith enc (readexactlyLoop enc dec buffer n) := by
  unfold readexactlyLoop
  split
  · exact ⟨_, _, rfl⟩
  · exact ⟨_, _, rfl⟩

/-- Calls do not touch the cipher of the writer. -/
theorem WritesWith.startRead (h : WritesWith enc s) (call : Call) :
    CallWritesWith enc (startRead s call) := by
  obtain ⟨dec, buffer, rfl⟩ := h
  cases call with
  | readexactly n => exact readexactlyLoop_writesWith _ _ _ _
  | read n =>
    rw [MseStreams.startRead]
    split
    · exact ⟨_, _, rfl⟩
    · exact ⟨_, _, rfl⟩

theorem WritesWith.feed (h : WritesWith enc s) (call : Call) (segment : Bytes) :
    CallWritesWith enc (reads.feed ⟨s, call⟩ segment).2 := by
  obtain ⟨dec, buffer, rfl⟩ := h
  cases call with
  | readexactly n => exact readexactlyLoop_writesWith _ _ _ _
  | read n => exact ⟨_, _, rfl⟩

theorem WritesWith.reads (h : WritesWith enc s) {o : ReadOutcome} (ho : Reads s o) :
    CallWritesWith enc o := by
  rcases ho with ⟨call, rfl⟩ | ⟨call, segment, rfl⟩
  · exact h.startRead call
  · exact h.feed call segment

def CallSecured (IsKey : RC4 → Prop) (stream : PeerStream) (log : List Write) : ReadOutcome → Prop
  | .waits r => Secured IsKey (stream.over r.stream) log
  | .returns (_, after) => Secured IsKey (stream.over after) log
  | .raises _ => True

theorem Secured.reads (h : Secured IsKey stream log) {o : ReadOutcome} (ho : Reads stream.base o) :
    CallSecured IsKey stream log o := by
  obtain ⟨key, n, dec, buffer, hkey, hselect, henc, hlog, rfl⟩ := h
  have hwrites : WritesWith (skip next key (payload log).length)
      (PeerStream.base (.mse n (.encrypted (skip next key (payload log).length) dec buffer))) :=
    ⟨dec, buffer, rfl⟩
  have hcall := hwrites.reads ho
  cases o with
  | waits r =>
    obtain ⟨dec', buffer', hstream⟩ := hcall
    refine ⟨key, n, dec', buffer', hkey, hselect, henc, hlog, ?_⟩
    rw [hstream]
    rfl
  | returns r =>
    obtain ⟨dec', buffer', hstream⟩ := hcall
    refine ⟨key, n, dec', buffer', hkey, hselect, henc, hlog, ?_⟩
    rw [hstream]
    rfl
  | raises e => trivial

variable {ε τ η : Type}

def LogSecured (IsKey : RC4 → Prop) (log : List Write) : Prop :=
  ∃ key, IsKey key ∧ EncryptedUnder key log

theorem Secured.logSecured (h : Secured IsKey stream log) : LogSecured IsKey log := by
  obtain ⟨key, -, -, -, hkey, -, -, hlog, -⟩ := h
  exact ⟨key, hkey, hlog⟩

def Holds (IsKey : RC4 → Prop) (Opens : τ → Bytes → List Write → Prop) (k : Connection τ η) : Prop :=
  match k.stage with
  | .opening st => Opens st k.incoming k.log
  | .running stream _ => Secured IsKey stream k.log
  | .stopped stream => Secured IsKey stream k.log
  | .ended _ => LogSecured IsKey k.log

/-- Each await keeps `Opens`, or leads to a peer on a secured stream. -/
structure Guards (O : Opening ε τ η) (IsKey : RC4 → Prop) (Opens : τ → Bytes → List Write → Prop) :
    Prop where
  feeds : ∀ (k : Connection τ η) st n env, Opens st k.incoming k.log →
    (O.demand st).Serves (k.incoming.take n) →
    Holds IsKey Opens (k.advance n (O.feed env st (k.incoming.take n)))
  fails : ∀ (k : Connection τ η) st, Opens st k.incoming k.log →
    Holds IsKey Opens (k.advance 0 (O.fails st))
  log : ∀ st incoming log, Opens st incoming log → LogSecured IsKey log

variable {O : Opening ε τ η} {Opens : τ → Bytes → List Write → Prop} {k k' : Connection τ η}

theorem Holds.step (hguards : Guards O IsKey Opens) (h : Holds IsKey Opens k)
    (hstep : k.Steps O k') : Holds IsKey Opens k' := by
  unfold Holds at h
  cases hstep with
  | feeds hst hserves =>
    rw [hst] at h
    exact hguards.feeds k _ _ _ h hserves
  | fails hst =>
    rw [hst] at h
    exact hguards.fails k _ h
  | cancels hst =>
    rw [hst] at h
    exact hguards.log _ _ _ h
  | @reads stream call o incoming hst ho =>
    rw [hst] at h
    have hcall := Secured.reads h ho
    cases o with
    | waits r => exact hcall
    | returns r => exact hcall
    | raises e => exact h
  | sends message hst =>
    rw [hst] at h
    have hmessage : Content.message ≠ .mse := by decide
    exact Secured.write h hmessage message
  | stops hst =>
    rw [hst] at h
    exact h

theorem Holds.run (hguards : Guards O IsKey Opens) (h : Holds IsKey Opens k)
    {events : List (Event ε)} (hrun : k.run O events = some k') : Holds IsKey Opens k' :=
  Connection.run_invariant (fun _ _ _ h hstep => h.step hguards (Connection.steps hstep)) h hrun

/-- A peer only runs on the encrypted stream of a handshake which has selected RC4, and handshakes
and messages are encrypted under a key of the handshake. -/
structure Protected (IsKey : RC4 → Prop) (k : Connection τ η) : Prop where
  peer : ∀ stream call, k.stage = .running stream call → Secured IsKey stream k.log
  log : LogSecured IsKey k.log

theorem Holds.protected (hguards : Guards O IsKey Opens) (h : Holds IsKey Opens k) :
    Protected IsKey k := by
  unfold Holds at h
  constructor
  · intro stream call hst
    rwa [hst] at h
  · cases hst : k.stage with
    | opening st =>
      rw [hst] at h
      exact hguards.log _ _ _ h
    | running stream call =>
      rw [hst] at h
      exact Secured.logSecured h
    | stopped stream =>
      rw [hst] at h
      exact Secured.logSecured h
    | ended why =>
      rw [hst] at h
      exact h

def SecuredResult (IsKey : RC4 → Prop) (n : Negotiated) : Prop :=
  n.cryptoSelect = cryptoRc4 ∧ n.result.encrypted = true ∧
    ∃ enc, IsKey enc ∧ WritesWith enc n.result.stream

/-- The stream is taken up behind the MSE handshake. -/
theorem SecuredResult.secured {n : Negotiated} (h : SecuredResult IsKey n) (hlog : OnlyMse log) :
    Secured IsKey (.mse n n.result.stream) log := by
  obtain ⟨hselect, henc, enc, hkey, dec, buffer, hstream⟩ := h
  refine ⟨enc, n, dec, buffer, hkey, hselect, henc, hlog.encryptedUnder enc, ?_⟩
  rw [hstream, hlog.payload]
  rfl

/-- The ciphers that a secret gives for some info hash, at any place of their keystreams. -/
def KeyOf (secret : Bytes) (initiator : Bool) (infoHash : Bytes) (key : RC4) : Prop :=
  ∃ n, key = skip next (deriveKeys secret infoHash initiator).1 n

theorem KeyOf.skip {secret infoHash : Bytes} {initiator : Bool} {key : RC4}
    (h : KeyOf secret initiator infoHash key) (m : ℕ) :
    KeyOf secret initiator infoHash (StreamCiphers.skip next key m) := by
  obtain ⟨n, rfl⟩ := h
  exact ⟨n + m, (skip_add next _ n m).symm⟩

theorem take_of_length {b : Bytes} {k n : ℕ} (h : (b.take k).length = n) : b.take k = b.take n := by
  rw [List.length_take] at h
  rw [List.take_eq_take_iff]
  omega

theorem drop_of_length {b : Bytes} {k n : ℕ} (h : (b.take k).length = n) : b.drop k = b.drop n := by
  have hsplit : b.take k ++ b.drop k = b.take k ++ b.drop n := by
    rw [List.take_append_drop, take_of_length h, List.take_append_drop]
  exact List.append_cancel_left hsplit

section Outgoing

variable {a : InitiatorCall} {secret : Bytes} {dec : RC4}

def InitiatorKeyed (a : InitiatorCall) (secret : Bytes) : Initiating → Prop
  | .publicKey => False
  | .scanning s enc _ => s = secret ∧ KeyOf secret true a.infoHash enc
  | .header enc _ _ => KeyOf secret true a.infoHash enc
  | .padding enc _ _ _ _ => KeyOf secret true a.infoHash enc

def InitiatorLeads (a : InitiatorCall) (secret : Bytes) : InitiatorOutcome → Prop
  | .waits st => InitiatorKeyed a secret st
  | .returns n => SecuredResult (KeyOf secret true a.infoHash) n
  | .raises _ => True

theorem initiatorResult_leads (hforced : a.policy = .forced)
    (hkey : KeyOf secret true a.infoHash enc) (cryptoSelect : ℕ) (data : Bytes) :
    InitiatorLeads a secret (initiatorResult a.policy enc dec cryptoSelect data) := by
  unfold initiatorResult
  rw [hforced]
  by_cases hrc4 : cryptoSelect = cryptoRc4
  · rw [if_pos hrc4, if_neg (by decide)]
    exact ⟨hrc4, rfl, enc, hkey, _, _, rfl⟩
  · rw [if_neg hrc4]
    by_cases hplain : cryptoSelect = cryptoPlaintext
    · rw [if_pos hplain, if_pos rfl]
      trivial
    · rw [if_neg hplain]
      trivial

theorem readPadD_leads (hforced : a.policy = .forced) (hkey : KeyOf secret true a.infoHash enc)
    (cryptoSelect padDLen : ℕ) (data : Bytes) :
    InitiatorLeads a secret (readPadD a.policy enc dec cryptoSelect padDLen data) := by
  unfold readPadD
  split
  · exact hkey
  · exact initiatorResult_leads hforced hkey _ _

theorem readResponse_leads (hforced : a.policy = .forced) (hkey : KeyOf secret true a.infoHash enc)
    (data : Bytes) : InitiatorLeads a secret (readResponse a.policy enc dec data) := by
  unfold readResponse
  split
  · exact hkey
  · simp only
    split
    · trivial
    · exact readPadD_leads hforced hkey _ _ _

theorem scanForVc_leads (hforced : a.policy = .forced) (hkey : KeyOf secret true a.infoHash enc)
    (scanBuf : Bytes) : InitiatorLeads a secret (scanForVc a secret enc scanBuf) := by
  unfold scanForVc
  simp only
  split
  · exact readResponse_leads hforced hkey _
  · split
    · trivial
    · exact ⟨rfl, hkey⟩

theorem cryptoBlock_key : KeyOf secret true a.infoHash (a.cryptoBlock secret).2 := by
  simp only [InitiatorCall.cryptoBlock, process_snd]
  exact ⟨_, rfl⟩

theorem initiator_publicKey_leads (segment : Bytes) :
    InitiatorLeads a (dhSecret segment a.privateKey.int) ((mseInitiate a).feed .publicKey segment).2 :=
  ⟨rfl, cryptoBlock_key⟩

theorem initiator_feed_leads (hforced : a.policy = .forced) {st : Initiating}
    (h : InitiatorKeyed a secret st) (segment : Bytes) :
    InitiatorLeads a secret ((mseInitiate a).feed st segment).2 := by
  cases st with
  | publicKey => exact h.elim
  | scanning s enc scanBuf =>
    obtain ⟨rfl, hkey⟩ := h
    exact scanForVc_leads hforced hkey _
  | header enc dec data => exact readResponse_leads hforced h _
  | padding enc dec cryptoSelect padDLen data => exact readPadD_leads hforced h _ _ _

variable (c : OutgoingCall) (wire : Bytes)

/-- The keys of `connect`: the remote's public value comes first. -/
def OutgoingKey : RC4 → Prop :=
  KeyOf (dhSecret (wire.take 96) c.privateKey.int) true c.infoHash

def Connects : Connecting → Bytes → List Write → Prop
  | .initiating st, incoming, log => OnlyMse log ∧ (st = .publicKey ∧ incoming = wire ∨
      InitiatorKeyed c.mse (dhSecret (wire.take 96) c.privateKey.int) st)
  | .receivingHandshake stream _, _, log => Secured (OutgoingKey c wire) stream log

variable {c wire}

theorem receiveHandshake_holds (incoming : Bytes) {o : ReadOutcome}
    (h : Secured (OutgoingKey c wire) stream log) (ho : Reads stream.base o) : Holds (OutgoingKey c wire) (Connects c wire)
      ⟨.ofNext (receiveHandshake c stream o), incoming, log⟩ := by
  have hcall := h.reads ho
  cases o with
  | waits r => exact hcall
  | raises e => exact h.logSecured
  | returns r =>
    simp only [receiveHandshake]
    split
    · exact h.logSecured
    · split
      · exact h.logSecured
      · exact hcall

theorem sendHandshake_holds (incoming : Bytes) (h : Secured (OutgoingKey c wire) stream log) :
    Holds (OutgoingKey c wire) (Connects c wire)
      ⟨.ofNext (sendHandshake c stream).2, incoming, log ++ (sendHandshake c stream).1⟩ := by
  have hhandshake : Content.handshake ≠ .mse := by decide
  exact receiveHandshake_holds incoming (h.write hhandshake c.handshake.toBytes) (Or.inl ⟨_, rfl⟩)

theorem initiated_holds (incoming : Bytes) (hforced : c.encryption = .forced) {o : InitiatorOutcome} {out : Bytes}
    (hlog : OnlyMse log)
    (h : InitiatorLeads c.mse (dhSecret (wire.take 96) c.privateKey.int) o) :
    Holds (OutgoingKey c wire) (Connects c wire)
      ⟨.ofNext (initiated c out o).2, incoming, log ++ (initiated c out o).1⟩ := by
  have hwritten := hlog.append (onlyMse_mseWrite out)
  cases o with
  | waits st => exact ⟨hwritten, Or.inr h⟩
  | returns n =>
    have hsecured : Secured (OutgoingKey c wire) (.mse n n.result.stream) (log ++ mseWrite out) :=
      h.secured hwritten
    have hnext := sendHandshake_holds incoming hsecured
    simp only [initiated, ← List.append_assoc]
    exact hnext
  | raises e =>
    simp only [initiated, fallBack, hforced, if_true, List.append_nil]
    exact ⟨_, ⟨0, rfl⟩, hwritten.encryptedUnder _⟩

theorem connect_guards (hforced : c.encryption = .forced) :
    Guards (connect c) (OutgoingKey c wire) (Connects c wire) where
  feeds := by
    intro k st n env h hserves
    cases st with
    | initiating st =>
      obtain ⟨hlog, ⟨rfl, hincoming⟩ | hkeyed⟩ := h
      · have hpublic : k.incoming.take n = wire.take 96 := by
          rw [← hincoming]
          exact take_of_length hserves
        rw [hpublic]
        exact initiated_holds _ hforced hlog (initiator_publicKey_leads _)
      · exact initiated_holds _ hforced hlog (initiator_feed_leads hforced hkeyed _)
    | receivingHandshake stream call =>
      have hnext := receiveHandshake_holds (k.incoming.drop n) h
        (Or.inr ⟨call, k.incoming.take n, rfl⟩)
      rw [← List.append_nil k.log] at hnext
      exact hnext
  fails := by
    intro k st h
    cases st with
    | initiating st =>
      have hfall : (connect c).fails (.initiating st) = ([], .ends .connectionLost) :=
        if_pos hforced
      rw [hfall]
      refine ⟨_, ⟨0, rfl⟩, ?_⟩
      rw [Connection.advance, List.append_nil]
      exact h.1.encryptedUnder _
    | receivingHandshake stream call =>
      have hlog := Secured.logSecured h
      rw [← List.append_nil k.log] at hlog
      exact hlog
  log := by
    intro st incoming log h
    cases st with
    | initiating st => exact ⟨_, ⟨0, rfl⟩, h.1.encryptedUnder _⟩
    | receivingHandshake stream call => exact Secured.logSecured h

theorem connect_start (hforced : c.encryption = .forced) :
    Holds (OutgoingKey c wire) (Connects c wire) (.start (connect c) wire) := by
  have hstart : (connect c).start = (mseWrite c.mse.publicValue, .waits (.initiating .publicKey)) :=
    if_pos (Or.inr hforced)
  rw [Connection.start, hstart]
  simp only [Holds, Stage.ofNext, Connects]
  exact ⟨onlyMse_mseWrite c.mse.publicValue, Or.inl ⟨trivial, trivial⟩⟩

end Outgoing

section Incoming

variable {b : ReceiverCall} {secret : Bytes} {dec : RC4}

def AnyKeyOf (secret : Bytes) (key : RC4) : Prop := ∃ infoHash, KeyOf secret false infoHash key

def ReceiverKeyed (secret : Bytes) : Receiving → Prop
  | .publicKey => False
  | .scanning s _ _ => s = secret
  | .header _ enc _ _ => AnyKeyOf secret enc
  | .padding _ enc _ _ _ _ => AnyKeyOf secret enc
  | .payload _ enc _ _ _ _ => AnyKeyOf secret enc
  | .responding n => SecuredResult (AnyKeyOf secret) n

def ReceiverLeads (secret : Bytes) : Outcome Receiving Negotiated Failure → Prop
  | .waits st => ReceiverKeyed secret st
  | .returns n => SecuredResult (AnyKeyOf secret) n
  | .raises _ => True

theorem respond_leads (hforced : b.policy = .forced) (hkey : AnyKeyOf secret enc)
    (matchedHash : Bytes) (cryptoProvide : ℕ) (data : Bytes) :
    ReceiverLeads secret (respond b matchedHash enc dec cryptoProvide data).2 := by
  unfold respond selectCrypto
  rw [hforced]
  by_cases hoffer : cryptoProvide &&& cryptoRc4 = 0
  · simp only [hoffer, if_true]
    trivial
  · obtain ⟨infoHash, hkey⟩ := hkey
    simp only [hoffer, if_false, if_true, process_snd]
    exact ⟨rfl, rfl, _, ⟨infoHash, hkey.skip _⟩, _, _, rfl⟩

theorem readPayload_leads (hforced : b.policy = .forced) (hkey : AnyKeyOf secret enc)
    (matchedHash : Bytes) (cryptoProvide iaLen : ℕ) (data : Bytes) :
    ReceiverLeads secret (readPayload b matchedHash enc dec cryptoProvide iaLen data).2 := by
  unfold readPayload
  split
  · exact hkey
  · exact respond_leads hforced hkey _ _ _

theorem readPadC_leads (hforced : b.policy = .forced) (hkey : AnyKeyOf secret enc)
    (matchedHash : Bytes) (cryptoProvide padCLen : ℕ) (data : Bytes) :
    ReceiverLeads secret (readPadC b matchedHash enc dec cryptoProvide padCLen data).2 := by
  unfold readPadC
  simp only
  split
  · exact hkey
  · exact readPayload_leads hforced hkey _ _ _ _

theorem readOffer_leads (hforced : b.policy = .forced) (hkey : AnyKeyOf secret enc)
    (matchedHash data : Bytes) :
    ReceiverLeads secret (readOffer b matchedHash enc dec data).2 := by
  unfold readOffer
  split
  · exact hkey
  · simp only
    split
    · trivial
    · exact readPadC_leads hforced hkey _ _ _ _

theorem identify_leads (hforced : b.policy = .forced) (scanBuf : Bytes) (req1Pos : ℕ) :
    ReceiverLeads secret (identify b secret scanBuf req1Pos).2 := by
  unfold identify
  split
  · trivial
  · next matchedHash _ =>
    have hkey : AnyKeyOf secret (deriveKeys secret matchedHash false).1 := ⟨matchedHash, 0, rfl⟩
    exact readOffer_leads hforced hkey _ _

theorem scanForReq1_leads (hforced : b.policy = .forced) (scanBuf : Bytes) (req1Pos : Option ℕ) :
    ReceiverLeads secret (scanForReq1 b secret scanBuf req1Pos).2 := by
  unfold scanForReq1
  split
  · split
    · trivial
    · rfl
  · split
    · rfl
    · exact identify_leads hforced _ _

theorem receiver_publicKey_leads (segment : Bytes) :
    ReceiverLeads (dhSecret segment b.privateKey.int) ((mseReceive b).feed .publicKey segment).2 :=
  rfl

theorem receiver_feed_leads (hforced : b.policy = .forced) {st : Receiving}
    (h : ReceiverKeyed secret st) (segment : Bytes) :
    ReceiverLeads secret ((mseReceive b).feed st segment).2 := by
  cases st with
  | publicKey => exact h.elim
  | scanning s scanBuf req1Pos =>
    obtain rfl := h
    exact scanForReq1_leads hforced _ _
  | header matchedHash enc dec data => exact readOffer_leads hforced h _ _
  | padding matchedHash enc dec cryptoProvide padCLen data => exact readPadC_leads hforced h _ _ _ _
  | payload matchedHash enc dec cryptoProvide iaLen data =>
    exact readPayload_leads hforced h _ _ _ _
  | responding n => exact h

variable (c : IncomingCall) (wire : Bytes)

/-- The keys of `_handle_incoming`: the remote's public value comes first. -/
def IncomingKey : RC4 → Prop := AnyKeyOf (dhSecret (wire.take 96) c.privateKey.int)

/-- The awaits of `_handle_incoming`, on a connection where the remote sends `wire`. -/
def Handles : Handling → Bytes → List Write → Prop
  | .firstByte, incoming, log => OnlyMse log ∧ incoming = wire
  | .receiving firstByte call st, incoming, log => OnlyMse log ∧ call.policy = .forced ∧
      call.privateKey = c.privateKey ∧ (st = .publicKey ∧ wire = firstByte :: incoming ∨
        ReceiverKeyed (dhSecret (wire.take 96) c.privateKey.int) st)
  | .mseHandshake _ n r, _, log => Secured (IncomingKey c wire) (.mse n r.stream) log
  | .rest _, _, log => OnlyMse log
  | .greeting stream, _, log => Secured (IncomingKey c wire) stream log

variable {c wire}

theorem OnlyMse.handled (h : OnlyMse log) : LogSecured (IncomingKey c wire) log :=
  ⟨_, ⟨[], 0, rfl⟩, h.encryptedUnder _⟩

theorem greet_holds (incoming infoHash : Bytes) (h : Secured (IncomingKey c wire) stream log) :
    Holds (IncomingKey c wire) (Handles c wire)
      ⟨.ofNext (greet c infoHash stream).2, incoming, log ++ (greet c infoHash stream).1⟩ := by
  have hhandshake : Content.handshake ≠ .mse := by decide
  exact h.write hhandshake _

theorem acceptMse_holds (incoming matchedHash : Bytes) {n : Negotiated} {s : MSEStream}
    {o : ReadOutcome} (h : Secured (IncomingKey c wire) (.mse n s) log) (ho : Reads s o) :
    Holds (IncomingKey c wire) (Handles c wire) ⟨.ofNext (acceptMse c matchedHash n o).2, incoming,
      log ++ (acceptMse c matchedHash n o).1⟩ := by
  have hcall := h.reads ho
  have hlog := h.logSecured
  rw [← List.append_nil log] at hlog
  cases o with
  | waits r =>
    simp only [acceptMse, List.append_nil]
    exact hcall
  | raises e => exact hlog
  | returns r =>
    simp only [acceptMse]
    split
    · exact hlog
    · split
      · exact hlog
      · exact greet_holds _ _ hcall

theorem received_holds (incoming : Bytes) (sessions : List Bytes) {n : Negotiated}
    (h : Secured (IncomingKey c wire) (.mse n n.result.stream) log) :
    Holds (IncomingKey c wire) (Handles c wire)
      ⟨.ofNext (received c sessions n).2, incoming, log ++ (received c sessions n).1⟩ := by
  have hlog := h.logSecured
  rw [← List.append_nil log] at hlog
  unfold received
  split
  · exact hlog
  · split
    · exact hlog
    · exact acceptMse_holds _ _ h (Or.inl ⟨_, rfl⟩)

theorem detect_holds (hforced : c.encryption = .forced) (sessions : List Bytes) {firstByte : UInt8}
    {rest : Bytes} (hwire : wire = firstByte :: rest) (hlog : OnlyMse log) :
    Holds (IncomingKey c wire) (Handles c wire)
      ⟨.ofNext (detect c sessions firstByte).2, rest, log ++ (detect c sessions firstByte).1⟩ := by
  have hlog' := hlog
  rw [← List.append_nil log] at hlog'
  unfold detect
  split
  · exact ⟨hlog', hforced, rfl, Or.inl ⟨rfl, hwire⟩⟩
  · split
    · exact hlog'.handled
    · exact hlog'

theorem acceptPlaintext_holds (hforced : c.encryption = .forced) (sessions : List Bytes)
    (incoming data : Bytes) (hlog : OnlyMse log) :
    Holds (IncomingKey c wire) (Handles c wire) ⟨.ofNext (acceptPlaintext c sessions data).2, incoming,
      log ++ (acceptPlaintext c sessions data).1⟩ := by
  rw [← List.append_nil log] at hlog
  unfold acceptPlaintext
  split
  · exact hlog.handled
  · split
    · exact hlog.handled
    · exact hlog.handled

theorem handles_logSecured {st : Handling} {incoming : Bytes} (h : Handles c wire st incoming log) :
    LogSecured (IncomingKey c wire) log := by
  cases st with
  | firstByte => exact h.1.handled
  | receiving firstByte call st => exact h.1.handled
  | mseHandshake matchedHash n r => exact Secured.logSecured h
  | rest firstByte => exact OnlyMse.handled h
  | greeting stream => exact Secured.logSecured h

theorem receiving_leads {k : Connection Handling Closed} {firstByte : UInt8} {call : ReceiverCall}
    {st : Receiving} {n : ℕ} (h : Handles c wire (.receiving firstByte call st) k.incoming k.log)
    (hserves : ((handleIncoming c).demand (.receiving firstByte call st)).Serves
      (k.incoming.take n)) :
    ReceiverLeads (dhSecret (wire.take 96) c.privateKey.int)
      ((mseReceive call).feed st (prefixed firstByte st (k.incoming.take n))).2 := by
  obtain ⟨-, hforced, hkey, ⟨rfl, hwire⟩ | hkeyed⟩ := h
  · have hpublic : wire.take 96 = firstByte :: k.incoming.take n := by
      rw [hwire, take_of_length hserves]
      rfl
    rw [hpublic, ← hkey]
    exact receiver_publicKey_leads _
  · exact receiver_feed_leads hforced hkeyed _

theorem receiving_holds {k : Connection Handling Closed} {firstByte : UInt8} {call : ReceiverCall}
    {st : Receiving} {n : ℕ} (sessions : List Bytes)
    (h : Handles c wire (.receiving firstByte call st) k.incoming k.log)
    (hserves : ((handleIncoming c).demand (.receiving firstByte call st)).Serves
      (k.incoming.take n)) :
    Holds (IncomingKey c wire) (Handles c wire) (k.advance n
      ((handleIncoming c).feed sessions (.receiving firstByte call st) (k.incoming.take n))) := by
  have hleads := receiving_leads h hserves
  obtain ⟨hlog, hforced, hkey, -⟩ := h
  simp only [Connection.advance, handleIncoming]
  generalize (mseReceive call).feed st (prefixed firstByte st (k.incoming.take n)) = step at hleads ⊢
  obtain ⟨out, o⟩ := step
  have hwritten := hlog.append (onlyMse_mseWrite out)
  cases o with
  | waits st' => exact ⟨hwritten, hforced, hkey, Or.inr hleads⟩
  | raises e => exact hwritten.handled
  | returns negotiated =>
    have hsecured : Secured (IncomingKey c wire) (.mse negotiated negotiated.result.stream)
        (k.log ++ mseWrite out) := SecuredResult.secured hleads hwritten
    simp only [← List.append_assoc]
    exact received_holds _ _ hsecured

theorem handleIncoming_guards (hforced : c.encryption = .forced) :
    Guards (handleIncoming c) (IncomingKey c wire) (Handles c wire) where
  feeds := by
    intro k st n sessions h hserves
    cases st with
    | firstByte =>
      obtain ⟨hlog, hincoming⟩ := h
      have htake := take_of_length hserves
      rw [Connection.advance, drop_of_length hserves, htake, hincoming]
      rw [htake, hincoming] at hserves
      cases wire with
      | nil => cases hserves
      | cons first rest => exact detect_holds hforced sessions rfl hlog
    | receiving firstByte call st => exact receiving_holds sessions h hserves
    | mseHandshake matchedHash negotiated r =>
      exact acceptMse_holds _ _ h (Or.inr ⟨r.call, k.incoming.take n, rfl⟩)
    | rest firstByte => exact acceptPlaintext_holds hforced _ _ _ h
    | greeting stream =>
      rw [← List.append_nil k.log] at h
      exact h
  fails := by
    intro k st h
    have hlog := handles_logSecured h
    rw [← List.append_nil k.log] at hlog
    exact hlog
  log := fun _ _ _ => handles_logSecured

theorem handleIncoming_start :
    Holds (IncomingKey c wire) (Handles c wire) (.start (handleIncoming c) wire) :=
  ⟨nofun, rfl⟩

end Incoming

/-- With forced encryption, in every run of an outgoing and of an incoming connection, whatever the
remote sends and however it is cut: a peer only runs on a stream that RC4 was selected for, and
handshakes and messages only reach the transport encrypted. -/
theorem forced_protected :
    (∀ (c : OutgoingCall) (wire : Bytes) (events : List (Event Unit))
      (k : Connection Connecting ConnectError), c.encryption = .forced →
      (Connection.start (connect c) wire).run (connect c) events = some k →
      Protected (OutgoingKey c wire) k) ∧
      ∀ (c : IncomingCall) (wire : Bytes) (events : List (Event (List Bytes)))
        (k : Connection Handling Closed), c.encryption = .forced →
        (Connection.start (handleIncoming c) wire).run (handleIncoming c) events = some k →
        Protected (IncomingKey c wire) k := by
  constructor
  · intro c wire events k hforced hrun
    have hguards : Guards (connect c) (OutgoingKey c wire) (Connects c wire) := connect_guards hforced
    exact ((connect_start hforced).run hguards hrun).protected hguards
  · intro c wire events k hforced hrun
    have hguards : Guards (handleIncoming c) (IncomingKey c wire) (Handles c wire) :=
      handleIncoming_guards hforced
    exact (handleIncoming_start.run hguards hrun).protected hguards

theorem startRead_all (enc dec : RC4) {buffer : Bytes} {n : ℕ} (h : buffer.length = n) :
    startRead (.encrypted enc dec buffer) (.readexactly n) =
      .returns (buffer, .encrypted enc dec []) := by
  rw [startRead, readexactlyLoop, if_neg (by omega), List.take_of_length_le (by omega),
    List.drop_of_length_le (by omega)]

/-- The handshake of the remote came along with the end of the MSE handshake. -/
theorem sendHandshake_runs {c : OutgoingCall} {n : Negotiated} {enc dec : RC4} {theirs : Handshake}
    (hsized : theirs.Sized) (hhash : theirs.infoHash = c.infoHash) :
    ∃ stream, (sendHandshake c (.mse n (.encrypted enc dec theirs.toBytes))).2 = .runs stream := by
  have hread := startRead_all (enc.process c.handshake.toBytes).2 dec hsized.length_toBytes
  refine ⟨.mse n (.encrypted (enc.process c.handshake.toBytes).2 dec []), ?_⟩
  simp only [sendHandshake, PeerStream.write, PeerStream.base, PeerStream.over, MSEStream.write, hread,
    receiveHandshake, Handshake.fromBytes_toBytes hsized, hhash, ne_eq, not_true_eq_false, if_false]

def answerWire (c : OutgoingCall) (a : Answer) (theirs : Handshake) : Bytes :=
  a.wire (initiatorSecret c.mse a) c.infoHash
    (crypt next (skip next (initiatorDec c.mse a) (14 + a.padD.1.length)) theirs.toBytes)

theorem initiated_runs {c : OutgoingCall} {a : Answer} {theirs : Handshake}
    {o : InitiatorOutcome} (out : Bytes) (hforced : c.encryption = .forced)
    (hselect : a.cryptoSelect = cryptoRc4) (hsized : theirs.Sized)
    (hhash : theirs.infoHash = c.infoHash)
    (hat : InitiatorAt c.mse a
      (crypt next (skip next (initiatorDec c.mse a) (14 + a.padD.1.length)) theirs.toBytes) o []) :
    ∃ stream, (initiated c out o).2 = .runs stream := by
  cases o with
  | waits st => exact absurd hat.ready.2 (Nat.not_lt_zero _)
  | returns n =>
    cases hat with
    | @done leftover _ _ hrest ho =>
      rw [List.append_nil] at hrest
      have hpolicy : c.mse.policy = .forced := hforced
      rw [initiatorResult, hpolicy, hselect, if_pos rfl, if_neg (by decide)] at ho
      obtain rfl := Outcome.returns.inj ho
      simp only [initiated, process_fst, process_snd, hrest, crypt_crypt]
      exact sendHandshake_runs hsized hhash
  | raises e =>
    cases hat with
    | done hrest ho =>
      have hpolicy : c.mse.policy = .forced := hforced
      rw [initiatorResult, hpolicy, hselect, if_pos rfl, if_neg (by decide)] at ho
      cases ho

theorem connect_feed (c : OutgoingCall) (st : Initiating) (segment : Bytes) :
    (connect c).feed () (.initiating st) segment = initiated c ((mseInitiate c.mse).feed st segment).1
      ((mseInitiate c.mse).feed st segment).2 := rfl

theorem connect_stage {c : OutgoingCall} (hforced : c.encryption = .forced) (wire : Bytes) :
    (Connection.start (connect c) wire).stage = .opening (.initiating .publicKey) := by
  have hnext : (connect c).start = (mseWrite c.mse.publicValue, .waits (.initiating .publicKey)) :=
    if_pos (Or.inr hforced)
  rw [Connection.start, hnext]
  rfl

/-- A remote that selects RC4 and sends its handshake gets a peer that runs. -/
theorem outgoing_runs {c : OutgoingCall} {a : Answer} {theirs : Handshake}
    (hforced : c.encryption = .forced) (hselect : a.cryptoSelect = cryptoRc4)
    (hmarker : FirstBehind (crypt next (initiatorDec c.mse a) vc) a.padB)
    (hshort : a.padB.1.length + a.padD.1.length ≤ 942) (hsized : theirs.Sized)
    (hhash : theirs.infoHash = c.infoHash) :
    ∃ events k stream, (Connection.start (connect c) (answerWire c a theirs)).run (connect c) events =
      some k ∧ k.stage = .running stream none := by
  have hpublic : (dhKeypair a.privateKey).2.length = 96 := length_dhKeypair a.privateKey
  obtain ⟨rest, hrest⟩ : ∃ rest, answerWire c a theirs = (dhKeypair a.privateKey).2 ++ rest :=
    ⟨_, rfl⟩
  have hlen : rest.length ≤ 1024 ∧ rest ≠ [] := by
    have hwire := congrArg List.length hrest
    rw [answerWire, Answer.length_wire, length_crypt, hsized.length_toBytes, List.length_append,
      hpublic] at hwire
    have hshake : handshakeLength = 68 := rfl
    exact ⟨by omega, List.length_pos_iff.mp (by omega)⟩
  -- the public value
  have hserves : ((mseInitiate c.mse).demand .publicKey).Serves (dhKeypair a.privateKey).2 := hpublic
  have hat : InitiatorAt c.mse a _ (.waits .publicKey) ((dhKeypair a.privateKey).2 ++ rest) :=
    .publicKey (hrest.symm.trans rfl)
  have hscans := hat.feed hmarker hserves
  have hfeed : (mseInitiate c.mse).feed .publicKey (dhKeypair a.privateKey).2 =
      ((c.mse.cryptoBlock (initiatorSecret c.mse a)).1, .waits (.scanning (initiatorSecret c.mse a)
        (c.mse.cryptoBlock (initiatorSecret c.mse a)).2 [])) := rfl
  have hinitiated := connect_feed c .publicKey (dhKeypair a.privateKey).2
  rw [hfeed] at hscans hinitiated
  generalize (c.mse.cryptoBlock (initiatorSecret c.mse a)).1 = block at hinitiated
  generalize (c.mse.cryptoBlock (initiatorSecret c.mse a)).2 = enc at hscans hinitiated
  have hone := Connection.step_segment (connect_stage hforced (answerWire c a theirs)) hrest hpublic
    hserves hinitiated
  -- the response, and the handshake of the remote
  have hserves' : ((mseInitiate c.mse).demand (.scanning (initiatorSecret c.mse a) enc [])).Serves
      rest := ⟨hlen.1, fun hnil => absurd hnil hlen.2⟩
  rw [← List.append_nil rest] at hscans
  have hdone := hscans.feed hmarker hserves'
  obtain ⟨stream, hruns⟩ := initiated_runs ((mseInitiate c.mse).feed (.scanning
    (initiatorSecret c.mse a) enc []) rest).1 hforced hselect hsized hhash hdone
  have htwo := connect_feed c (.scanning (initiatorSecret c.mse a) enc []) rest
  have hrun := (Connection.run_cons hone _).trans (Connection.run_cons
    (Connection.step_segment rfl (List.append_nil rest).symm rfl hserves' htwo) [])
  exact ⟨[.receives 96 (), .receives rest.length ()], _, stream, hrun, congrArg Stage.ofNext hruns⟩

def offerWire (b : ReceiverCall) (o : Offer) (theirs : Handshake) : Bytes :=
  o.wire (receiverSecret b o) (crypt next (skip next (receiverDec b o) o.text.length) theirs.toBytes)

def IncomingCall.receiver (c : IncomingCall) (sessions : List Bytes) : ReceiverCall :=
  ⟨.dict (sessions.map fun ih => (ih, ih)), c.encryption, c.privateKey, c.padB, c.padD⟩

/-- The handshake of the remote came along with the end of the MSE handshake. -/
theorem received_greets {c : IncomingCall} {sessions : List Bytes} {n : Negotiated}
    {theirs : Handshake} (hsized : theirs.Sized) (hhash : n.result.infoHash = some theirs.infoHash)
    (hknown : theirs.infoHash ∈ sessions)
    (hstream : ∃ enc dec, n.result.stream = .encrypted enc dec theirs.toBytes) :
    ∃ stream, (received c sessions n).2 = .waits (.greeting stream) := by
  obtain ⟨enc, dec, hstream⟩ := hstream
  have hread := startRead_all enc dec hsized.length_toBytes
  simp only [received, hhash, hstream, hread, acceptMse, Handshake.fromBytes_toBytes hsized, hknown,
    not_true_eq_false, if_false, ne_eq]
  exact ⟨_, rfl⟩

theorem receiving_waits {c : IncomingCall} {sessions : List Bytes} {firstByte : UInt8}
    {call : ReceiverCall} {st st' : Receiving} {segment out : Bytes}
    (h : (mseReceive call).feed st (prefixed firstByte st segment) = (out, .waits st')) :
    (handleIncoming c).feed sessions (.receiving firstByte call st) segment =
      (mseWrite out, .waits (.receiving firstByte call st')) := by
  simp only [handleIncoming, h]

theorem responding_greets {c : IncomingCall} {sessions : List Bytes} {firstByte : UInt8}
    {call : ReceiverCall} {n : Negotiated} {stream : PeerStream}
    (h : (received c sessions n).2 = .waits (.greeting stream)) :
    (handleIncoming c).feed sessions (.receiving firstByte call (.responding n)) [] =
      ((received c sessions n).1, .waits (.greeting stream)) := by
  rw [← h]
  rfl

theorem detect_receiving {c : IncomingCall} {firstByte : UInt8} (sessions : List Bytes)
    (hforced : c.encryption = .forced) (hfirst : firstByte ≠ 19) : detect c sessions firstByte =
      ([], .waits (.receiving firstByte (IncomingCall.receiver c sessions) .publicKey)) := by
  rw [detect, if_pos ⟨hfirst, by rw [hforced]; decide⟩]
  rfl

/-- The first byte, the rest of the public value, the offer, and the two drains. -/
theorem run_greets {c : IncomingCall} {call : ReceiverCall} {sessions : List Bytes}
    {first : UInt8} {more rest secret out out' : Bytes} {n : Negotiated} {stream : PeerStream}
    (hdetect : detect c sessions first = ([], .waits (.receiving first call .publicKey)))
    (hmore : more.length = 95) (hlen : rest.length ≤ 1024 ∧ rest ≠ [])
    (hpublic : (mseReceive call).feed .publicKey (first :: more) =
      (out, .waits (.scanning secret [] none)))
    (hoffer : (mseReceive call).feed (.scanning secret [] none) rest = (out', .waits (.responding n)))
    (hgreets : (received c sessions n).2 = .waits (.greeting stream)) :
    ∃ k, (Connection.start (handleIncoming c) (first :: (more ++ rest))).run (handleIncoming c)
      [.receives 1 sessions, .receives 95 sessions, .receives rest.length sessions,
        .receives 0 sessions, .receives 0 sessions] = some k ∧ k.stage = .running stream none := by
  have hserves : ((handleIncoming c).demand (.receiving first call .publicKey)).Serves more := hmore
  have hserves' : ((handleIncoming c).demand
      (.receiving first call (.scanning secret [] none))).Serves rest :=
    ⟨hlen.1, fun hnil => absurd hnil hlen.2⟩
  have hdrained : ((handleIncoming c).demand (.receiving first call (.responding n))).Serves [] := rfl
  have hdrained' : ((handleIncoming c).demand (.greeting stream)).Serves [] := rfl
  have hfirst : ((handleIncoming c).demand .firstByte).Serves [first] := rfl
  have hincoming : (Connection.start (handleIncoming c) (first :: (more ++ rest))).incoming =
      [first] ++ (more ++ rest) := rfl
  have hlength : [first].length = 1 := rfl
  have hnone : ([] : Bytes).length = 0 := rfl
  have hone := Connection.step_segment (c := Connection.start (handleIncoming c) _) rfl hincoming
    hlength hfirst hdetect
  have hruns : (handleIncoming c).feed sessions (.greeting stream) [] = ([], .runs stream) := rfl
  rw [Connection.run_cons hone]
  rw [Connection.run_cons (Connection.step_segment rfl rfl hmore hserves (receiving_waits hpublic))]
  rw [Connection.run_cons (Connection.step_segment rfl (List.append_nil rest).symm rfl hserves'
    (receiving_waits hoffer))]
  rw [Connection.run_cons (Connection.step_segment rfl rfl hnone hdrained (responding_greets hgreets))]
  rw [Connection.run_cons (Connection.step_segment rfl rfl hnone hdrained' hruns)]
  exact ⟨_, rfl, rfl⟩

/-- An initiator that offers RC4 and sends its handshake gets a peer that runs. -/
theorem incoming_runs {c : IncomingCall} {o : Offer} {theirs : Handshake} {sessions : List Bytes}
    {first : UInt8} (hforced : c.encryption = .forced)
    (hknown : Recognised (IncomingCall.receiver c sessions) o)
    (hoffer : selectCrypto .forced o.cryptoProvide = .ok cryptoRc4)
    (hfirst : (dhKeypair o.privateKey).2.head? = some first) (hmse : first ≠ 19)
    (hshort : o.padA.1.length + o.padC.1.length + o.ia.length ≤ 900) (hsized : theirs.Sized)
    (hhash : theirs.infoHash = o.infoHash) (hsession : o.infoHash ∈ sessions) :
    ∃ events k stream, (Connection.start (handleIncoming c)
      (offerWire (IncomingCall.receiver c sessions) o theirs)).run (handleIncoming c) events =
      some k ∧ k.stage = .running stream none := by
  have hpublic : (dhKeypair o.privateKey).2.length = 96 := length_dhKeypair o.privateKey
  obtain ⟨rest, hrest⟩ : ∃ rest, offerWire (IncomingCall.receiver c sessions) o theirs =
      (dhKeypair o.privateKey).2 ++ rest := ⟨_, rfl⟩
  have hlen : rest.length ≤ 1024 ∧ rest ≠ [] := by
    have hwire := congrArg List.length hrest
    rw [offerWire, Offer.length_wire, Offer.length_text, length_crypt, hsized.length_toBytes,
      List.length_append, hpublic] at hwire
    have hshake : handshakeLength = 68 := rfl
    exact ⟨by omega, List.length_pos_iff.mp (by omega)⟩
  have hat : ReceiverAt (IncomingCall.receiver c sessions) o _ (.waits .publicKey)
      ((dhKeypair o.privateKey).2 ++ rest) := .publicKey (hrest.symm.trans rfl)
  have hserves : ((mseReceive (IncomingCall.receiver c sessions)).demand .publicKey).Serves
      (dhKeypair o.privateKey).2 := hpublic
  obtain ⟨st, hfeed, hidle, hst, hscans⟩ := hat.feed_publicKey hserves
  obtain rfl : Receiving.scanning (receiverSecret (IncomingCall.receiver c sessions) o) [] none = st :=
    Outcome.waits.inj (congrArg Prod.snd hfeed)
  rw [← List.append_nil rest] at hscans
  have hdone := hscans.feed_offer hknown hst hidle
  have hresponds : ∃ out n, (mseReceive (IncomingCall.receiver c sessions)).feed (.scanning
      (receiverSecret (IncomingCall.receiver c sessions) o) [] none) rest =
        (out, .waits (.responding n)) ∧
      ∃ stream, (received c sessions n).2 = .waits (.greeting stream) := by
    generalize (mseReceive (IncomingCall.receiver c sessions)).feed (.scanning
      (receiverSecret (IncomingCall.receiver c sessions) o) [] none) rest = step at hdone
    cases hdone with
    | reads hwaits hidle' _ =>
      rcases hwaits.ready.2 with hlt | hresponding
      · exact absurd hlt (Nat.not_lt_zero _)
      · exact absurd hresponding hidle'
    | @done leftover _ hleft =>
      rw [List.append_nil] at hleft
      have hsel : selectCrypto (IncomingCall.receiver c sessions).policy o.cryptoProvide =
          .ok cryptoRc4 := by
        rw [← hoffer, ← hforced]
        rfl
      rw [receiverDone_ok hsel]
      refine ⟨_, _, rfl, received_greets hsized ?_ (hhash ▸ hsession) ?_⟩
      · rw [hhash]
        rfl
      · simp only [receiverNegotiated, if_true, hleft, crypt_crypt]
        exact ⟨_, _, rfl⟩
  obtain ⟨out, n, hresponse, stream, hgreets⟩ := hresponds
  cases hbytes : (dhKeypair o.privateKey).2 with
  | nil =>
    rw [hbytes] at hfirst
    cases hfirst
  | cons byte more =>
    rw [hbytes] at hfirst hrest hpublic hfeed
    obtain rfl := Option.some.inj hfirst
    have hmore : more.length = 95 := Nat.succ.inj hpublic
    have hdetect := detect_receiving sessions hforced hmse
    obtain ⟨k, hrun, hst⟩ := run_greets hdetect hmore hlen hfeed hresponse hgreets
    rw [hrest]
    exact ⟨_, k, stream, hrun, hst⟩

def somePeerId : Bytes := List.replicate 20 7

def forcedOutgoing : OutgoingCall := ⟨someHash, somePeerId, .forced, someKey, noPad, noPad⟩

def rc4Answer : Answer := ⟨someKey, noPad, noPad, cryptoRc4, by decide⟩

def forcedIncoming : IncomingCall := ⟨.forced, somePeerId, someKey, noPad, noPad⟩

def theirHandshake : Handshake := { infoHash := someHash, peerId := somePeerId }

theorem theirHandshake_sized : theirHandshake.Sized := ⟨rfl, rfl, rfl⟩

theorem someKey_head : (dhKeypair someKey).2.head? = some 0 := by
  have hint : someKey.int = 3 := by decide
  have hhigh : dhG ^ 3 % dhP / 256 ^ 95 = 0 := by decide +kernel
  unfold dhKeypair
  rw [hint, head?_toBytes (mod_dhP_lt _), hhigh]
  rfl

theorem forcedIncoming_recognised :
    Recognised (IncomingCall.receiver forcedIncoming [someHash]) (rc4Offer [] (by decide)) where
  marker := firstBehind_nil _
  known := List.mem_singleton_self someHash
  distinct := fun _ hmem _ => List.mem_singleton.mp hmem

theorem forced_protected_peers :
    (∃ events k stream, (Connection.start (connect forcedOutgoing)
        (answerWire forcedOutgoing rc4Answer theirHandshake)).run (connect forcedOutgoing) events =
          some k ∧ k.stage = .running stream none ∧
        Protected (OutgoingKey forcedOutgoing (answerWire forcedOutgoing rc4Answer theirHandshake)) k) ∧
      ∃ wire events k stream, (Connection.start (handleIncoming forcedIncoming) wire).run
        (handleIncoming forcedIncoming) events = some k ∧ k.stage = .running stream none ∧
        Protected (IncomingKey forcedIncoming wire) k := by
  constructor
  · have hmarker := firstBehind_nil (crypt next (initiatorDec forcedOutgoing.mse rc4Answer) vc)
    obtain ⟨events, k, stream, hrun, hst⟩ := outgoing_runs (c := forcedOutgoing) (a := rc4Answer) rfl
      rfl hmarker (by decide) theirHandshake_sized rfl
    exact ⟨events, k, stream, hrun, hst, forced_protected.1 _ _ events k rfl hrun⟩
  · obtain ⟨events, k, stream, hrun, hst⟩ := incoming_runs (c := forcedIncoming) rfl
      forcedIncoming_recognised rfl someKey_head (by decide) (by decide) theirHandshake_sized rfl
      (List.mem_singleton_self someHash)
    exact ⟨_, events, k, stream, hrun, hst, forced_protected.2 _ _ events k rfl hrun⟩

end ForcedEncryption
