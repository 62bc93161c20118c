import Aiobt.PeerConnections

/-! # The path of an incoming connection

`_handle_incoming` tells an MSE initiator from a plaintext handshake by the first byte. The highest
byte of a public value can be any, so a remote that initiates MSE may be taken for plaintext. -/
namespace IncomingDetection

open ByteStrings BigEndian DiffieHellman SegmentedReads MseStreams MseHandshake BtHandshake
  PeerConnections

variable {c : IncomingCall} {sessions wire rest segment : Bytes} {p : Path}

def pathOf (policy : EncryptionPolicy) (firstByte : UInt8) : Path :=
  if firstByte ≠ 19 ∧ policy ≠ .disabled then .mse else .plaintext

@[simp] theorem path_over (s : PeerStream) (stream : MSEStream) : (s.over stream).path = s.path := by
  cases s <;> rfl

theorem greet_path (infoHash : Bytes) (stream : PeerStream) :
    (Stage.ofNext (greet c infoHash stream).2).path = some stream.path :=
  congrArg some (path_over _ _)

theorem acceptMse_path (matchedHash : Bytes) (n : Negotiated) (o : ReadOutcome) :
    (Stage.ofNext (acceptMse c matchedHash n o).2).path = some .mse := by
  cases o with
  | waits r => rfl
  | raises e => rfl
  | returns r =>
    simp only [acceptMse]
    split
    · rfl
    · split
      · rfl
      · rw [greet_path]
        rfl

theorem received_path (sessions : List Bytes) (n : Negotiated) :
    (Stage.ofNext (received c sessions n).2).path = some .mse := by
  unfold received
  split
  · rfl
  · split
    · rfl
    · exact acceptMse_path _ _ _

theorem acceptPlaintext_path (sessions : List Bytes) (data : Bytes) :
    (Stage.ofNext (acceptPlaintext c sessions data).2).path = some .plaintext := by
  unfold acceptPlaintext
  split
  · rfl
  · split
    · rfl
    · split
      · rfl
      · rw [greet_path]
        rfl

theorem detect_path (sessions : List Bytes) (firstByte : UInt8) :
    (Stage.ofNext (detect c sessions firstByte).2).path = some (pathOf c.encryption firstByte) := by
  unfold detect pathOf
  split
  · rfl
  · split <;> rfl

theorem feed_path {sessions : List Bytes} {st : Handling} (h : st.path = some p) :
    (Stage.ofNext ((handleIncoming c).feed sessions st segment).2).path = some p := by
  cases st with
  | firstByte => cases h
  | receiving firstByte call st =>
    obtain rfl := Option.some.inj h
    simp only [handleIncoming]
    split
    · rfl
    · rfl
    · exact received_path _ _
  | mseHandshake matchedHash n r =>
    obtain rfl := Option.some.inj h
    simp only [handleIncoming]
    exact acceptMse_path _ _ _
  | rest firstByte =>
    obtain rfl := Option.some.inj h
    simp only [handleIncoming]
    exact acceptPlaintext_path _ _
  | greeting stream => exact h

theorem goOn_path {stream : PeerStream} (o : ReadOutcome) :
    (Stage.goOn stream o : Stage Handling Closed).path = some stream.path := by
  cases o with
  | waits r => exact congrArg some (path_over _ _)
  | returns r => exact congrArg some (path_over _ _)
  | raises e => rfl

variable {k k' : Connection Handling Closed} {event : Event (List Bytes)}

theorem steps_path (h : k.stage.path = some p) (hstep : k.Steps (handleIncoming c) k') :
    k'.stage.path = some p := by
  cases hstep with
  | feeds hst _ =>
    rw [hst] at h
    exact feed_path h
  | fails hst =>
    rw [hst] at h
    exact h
  | cancels hst =>
    rw [hst] at h
    exact h
  | reads _ hst _ =>
    rw [hst] at h
    exact (goOn_path _).trans h
  | sends _ hst =>
    rw [hst] at h
    exact (congrArg some (path_over _ _)).trans h
  | stops hst =>
    rw [hst] at h
    exact h

/-- Until the first byte is there, a connection has no path; then it keeps the one it selects. -/
structure Detects (c : IncomingCall) (firstByte : UInt8) (k : Connection Handling Closed) : Prop where
  waits : ∀ st, k.stage = .opening st → st.path = none →
    st = .firstByte ∧ k.incoming.head? = some firstByte
  keeps : ∀ p, k.stage.path = some p → p = pathOf c.encryption firstByte

theorem feed_firstByte {firstByte : UInt8} {n : ℕ} {sessions : List Bytes} {incoming : Bytes}
    (hserves : ((handleIncoming c).demand .firstByte).Serves (incoming.take n))
    (hfirst : incoming.head? = some firstByte) :
    (handleIncoming c).feed sessions .firstByte (incoming.take n) = detect c sessions firstByte := by
  have hlen : (incoming.take n).length = 1 := hserves
  have hn : n ≠ 0 := by
    rintro rfl
    cases hlen
  have hone : (incoming.take n).headD 0 = firstByte := by
    rw [List.headD_eq_head?_getD, List.head?_take, if_neg hn, hfirst]
    rfl
  rw [← hone]
  rfl

theorem Detects.step {firstByte : UInt8} (h : Detects c firstByte k)
    (hstep : k.step (handleIncoming c) event = some k') : Detects c firstByte k' := by
  cases hpath : k.stage.path with
  | some p =>
    have hnext := steps_path hpath (Connection.steps hstep)
    constructor
    · intro st hst hnone
      rw [hst] at hnext
      cases hnone.symm.trans hnext
    · intro p' hp'
      rw [hnext] at hp'
      cases hp'
      exact h.keeps p hpath
  | none =>
    cases Connection.steps hstep with
    | @feeds st n sessions hst hserves =>
      rw [hst] at hpath
      obtain ⟨rfl, hfirst⟩ := h.waits st hst hpath
      have hnext : (Stage.ofNext ((handleIncoming c).feed sessions .firstByte
          (k.incoming.take n)).2).path = some (pathOf c.encryption firstByte) :=
        (feed_firstByte hserves hfirst).symm ▸ detect_path _ _
      constructor
      · intro st hst' hnone
        have hdone := congrArg Stage.path hst'
        rw [Connection.advance, hnext] at hdone
        cases hdone.trans hnone
      · intro p hp
        exact (Option.some.inj (hnext.symm.trans hp)).symm
    | fails hst =>
      rw [hst] at hpath
      constructor
      · intro st' hst' _
        cases hst'
      · intro p hp
        cases hpath.symm.trans hp
    | cancels hst =>
      rw [hst] at hpath
      constructor
      · intro st' hst' _
        cases hst'
      · intro p hp
        cases hpath.symm.trans hp
    | reads _ hst _ =>
      rw [hst] at hpath
      cases hpath
    | sends _ hst =>
      rw [hst] at hpath
      cases hpath
    | stops hst =>
      rw [hst] at hpath
      cases hpath

theorem Detects.run {firstByte : UInt8} {events : List (Event (List Bytes))}
    (h : Detects c firstByte k) (hrun : k.run (handleIncoming c) events = some k') :
    Detects c firstByte k' :=
  Connection.run_invariant (fun _ _ _ h hstep => h.step hstep) h hrun

theorem detects_start {firstByte : UInt8} {wire : Bytes} (hfirst : wire.head? = some firstByte) :
    Detects c firstByte (.start (handleIncoming c) wire) where
  waits := by
    intro st hst _
    exact ⟨(Stage.opening.inj hst).symm, hfirst⟩
  keeps := nofun

/-- On a connection with `wire` to come, the path is taken as soon as the first byte is there, and no
other path in any run. -/
structure Takes (c : IncomingCall) (wire : Bytes) (path : Path) : Prop where
  taken : ∀ sessions, ∃ k, (Connection.start (handleIncoming c) wire).run (handleIncoming c)
    [.receives 1 sessions] = some k ∧ k.stage.path = some path
  only : ∀ events k, (Connection.start (handleIncoming c) wire).run (handleIncoming c) events =
    some k → ∀ p, k.stage.path = some p → p = path

theorem takes_iff {firstByte : UInt8} {wire : Bytes} (hfirst : wire.head? = some firstByte)
    {path : Path} : Takes c wire path ↔ path = pathOf c.encryption firstByte := by
  constructor
  · intro h
    obtain ⟨k, hrun, hpath⟩ := h.taken []
    exact ((detects_start hfirst).run hrun).keeps path hpath
  · rintro rfl
    constructor
    · intro sessions
      have hserves : ((handleIncoming c).demand .firstByte).Serves (wire.take 1) := by
        cases wire with
        | nil => cases hfirst
        | cons first rest => rfl
      refine ⟨(Connection.start (handleIncoming c) wire).advance 1 (detect c sessions firstByte), ?_,
        detect_path sessions firstByte⟩
      rw [Connection.run_cons (Connection.step_feeds rfl hserves)]
      exact congrArg (fun next => some (Connection.advance _ 1 next))
        (feed_firstByte hserves hfirst)
    · intro events k hrun
      exact ((detects_start hfirst).run hrun).keeps

theorem publicValue_head? (a : InitiatorCall) (more : Bytes) : (a.publicValue ++ more).head? =
    some (UInt8.ofNat (dhG ^ a.privateKey.int % dhP / 256 ^ 95)) := by
  have hfirst := head?_toBytes (mod_dhP_lt (dhG ^ a.privateKey.int))
  rw [InitiatorCall.publicValue, List.append_assoc, List.head?_append]
  unfold dhKeypair
  rw [hfirst]
  rfl

theorem highByte_ne {n : ℕ} (h : n < 256 ^ 96) :
    UInt8.ofNat (n / 256 ^ 95) ≠ 19 ↔ n / 256 ^ 95 ≠ 19 := by
  have hlt : n / 256 ^ 95 < 256 := by
    rw [Nat.div_lt_iff_lt_mul (by positivity), ← pow_succ']
    exact h
  have h19 : (19 : UInt8) = UInt8.ofNat 19 := rfl
  rw [h19, ne_eq, ne_eq, ← UInt8.toNat_inj, UInt8.toNat_ofNat', UInt8.toNat_ofNat',
    Nat.mod_eq_of_lt hlt]

def Malformed (k : Connection Handling Closed) : Prop :=
  ∃ e, k.stage = .ended ⟨some .plaintext, .handshake e⟩

/-- An MSE initiator takes the MSE path, and no other, and is not dropped as a malformed handshake if
and only if the highest byte of its public value is not 19; a handshake in clear takes the plaintext
path. -/
theorem initiator_detected (c : IncomingCall) (hpolicy : c.encryption ≠ .disabled) :
    (∀ (a : InitiatorCall) (more : Bytes),
      (Takes c (a.publicValue ++ more) .mse ∧
        ∀ events k, (Connection.start (handleIncoming c) (a.publicValue ++ more)).run
          (handleIncoming c) events = some k → ¬ Malformed k) ↔
        dhG ^ a.privateKey.int % dhP / 256 ^ 95 ≠ 19) ∧
      ∀ (data more : Bytes) (hs : Handshake), data.length = handshakeLength →
        Handshake.fromBytes data = .ok hs → Takes c (data ++ more) .plaintext := by
  constructor
  · intro a more
    have hfirst := publicValue_head? a more
    rw [takes_iff hfirst, ← highByte_ne (mod_dhP_lt _)]
    constructor
    · rintro ⟨hmse, -⟩ hhigh
      rw [pathOf, hhigh, if_neg (fun h => h.1 rfl)] at hmse
      cases hmse
    · intro hhigh
      have hpath : pathOf c.encryption
          (UInt8.ofNat (dhG ^ a.privateKey.int % dhP / 256 ^ 95)) = .mse :=
        if_pos ⟨hhigh, hpolicy⟩
      refine ⟨hpath.symm, ?_⟩
      rintro events k hrun ⟨e, hended⟩
      have hkeeps := ((detects_start hfirst).run hrun).keeps .plaintext (by rw [hended]; rfl)
      cases hkeeps.trans hpath
  · intro data more hs hlen hok
    obtain ⟨-, hfirst, -, -⟩ := Handshake.fromBytes_ok hok
    have hfirst' : (data ++ more).head? = some 19 := by
      rw [List.head?_append, hfirst]
      rfl
    rw [takes_iff hfirst', pathOf, if_neg (fun h => h.1 rfl)]

def collidingKey : PrivateKey := ((Vector.replicate 18 0).push 4).push 137

def noPad : Pad := ⟨[], nil_fits⟩

def callWith (key : PrivateKey) : InitiatorCall :=
  ⟨List.replicate 20 5, .preferred, key, noPad, noPad⟩

def somePreferred : IncomingCall :=
  ⟨.preferred, List.replicate 20 7, collidingKey, noPad, noPad⟩

theorem collidingKey_int : collidingKey.int = 1161 := by decide

theorem colliding_publicValue :
    (callWith collidingKey).publicValue = toBytes 96 (dhG ^ 1161 % dhP) := by
  rw [InitiatorCall.publicValue]
  unfold callWith dhKeypair noPad
  rw [collidingKey_int, List.append_nil]

/-- Behind the first byte there is something else than the protocol string. -/
theorem colliding_bytes :
    (toBytes 96 (dhG ^ 1161 % dhP)).take 1 = [19] ∧
      ((toBytes 96 (dhG ^ 1161 % dhP)).drop 1).head? = some 248 := by decide +kernel

theorem fromBytes_other {data : Bytes} {second : UInt8} (hsecond : (data.drop 1).head? = some second)
    (hne : second ≠ 0x42) : ∃ e, Handshake.fromBytes data = .error e := by
  cases hdata : Handshake.fromBytes data with
  | error e => exact ⟨e, rfl⟩
  | ok hs =>
    obtain ⟨-, -, hpstr, -⟩ := Handshake.fromBytes_ok hdata
    have hfront : (slice data 1 20).head? = some second := by
      rw [slice, List.drop_take, List.head?_take, if_neg (by decide), hsecond]
    rw [hpstr] at hfront
    exact absurd (Option.some.inj hfront).symm hne

theorem malformed_of_error {first : UInt8} {more : Bytes} {e : HandshakeError} (h19 : first = 19)
    (hlen : handshakeLength - 1 ≤ more.length)
    (herror : Handshake.fromBytes (first :: more.take (handshakeLength - 1)) = .error e) :
    ∃ events k, (Connection.start (handleIncoming c) (first :: more)).run (handleIncoming c) events =
      some k ∧ Malformed k := by
  subst h19
  have hfirst : ((handleIncoming c).demand .firstByte).Serves ((19 :: more : Bytes).take 1) := rfl
  have hrest : ((handleIncoming c).demand (.rest 19)).Serves (more.take (handshakeLength - 1)) :=
    List.length_take_of_le hlen
  have hdetect : detect c [] 19 = ([], .waits (.rest 19)) := by simp [detect]
  have hone : (Connection.start (handleIncoming c) (19 :: more)).step (handleIncoming c)
      (.receives 1 []) = some ⟨.opening (.rest 19), more, []⟩ := by
    rw [Connection.step_feeds rfl hfirst]
    exact congrArg (fun next => some (Connection.advance _ 1 next)) hdetect
  have hclear : acceptPlaintext c [] (19 :: more.take (handshakeLength - 1)) =
      ([], .ends ⟨some .plaintext, .handshake e⟩) := by
    simp only [acceptPlaintext, herror]
  refine ⟨[.receives 1 [], .receives (handshakeLength - 1) []],
    ⟨.ended ⟨some .plaintext, .handshake e⟩, more.drop (handshakeLength - 1), []⟩, ?_, e, rfl⟩
  rw [Connection.run_cons hone, Connection.run_cons (Connection.step_feeds rfl hrest)]
  exact congrArg (fun next => some (Connection.advance _ (handshakeLength - 1) next)) hclear

/-- The initiator is taken for a plaintext peer, and dropped as a malformed handshake. -/
theorem initiator_missed :
    ¬ Takes somePreferred (callWith collidingKey).publicValue .mse ∧
      ∃ events k, (Connection.start (handleIncoming somePreferred)
        (callWith collidingKey).publicValue).run (handleIncoming somePreferred) events = some k ∧
        Malformed k := by
  rw [colliding_publicValue]
  obtain ⟨hfirst, hsecond⟩ := colliding_bytes
  have hlen : (toBytes 96 (dhG ^ 1161 % dhP)).length = 96 := length_toBytes 96 _
  generalize toBytes 96 (dhG ^ 1161 % dhP) = wire at hfirst hsecond hlen ⊢
  cases wire with
  | nil => cases hlen
  | cons first more =>
    obtain rfl : first = 19 := List.head_eq_of_cons_eq hfirst
    constructor
    · rw [takes_iff rfl]
      decide
    · have hsecond' : ((19 :: more.take (handshakeLength - 1) : Bytes).drop 1).head? = some 248 := by
        rw [List.drop_one, List.tail_cons, List.head?_take, if_neg (by decide)]
        exact hsecond
      obtain ⟨e, he⟩ := fromBytes_other hsecond' (by decide)
      have hmore : handshakeLength - 1 ≤ more.length := by
        rw [List.length_cons] at hlen
        have hshort : handshakeLength = 68 := rfl
        omega
      exact malformed_of_error rfl hmore he

/-- The exponent 3 gives a public value that begins with 0. -/
theorem initiator_detected_small :
    Takes somePreferred ((callWith ((Vector.replicate 19 0).push 3)).publicValue ++ []) .mse := by
  have hsmall : dhG ^ (callWith ((Vector.replicate 19 0).push 3)).privateKey.int % dhP / 256 ^ 95 ≠ 19 := by
    decide +kernel
  exact (((initiator_detected somePreferred (by decide)).1 _ []).mpr hsmall).1

end IncomingDetection
