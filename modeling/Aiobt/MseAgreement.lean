import Aiobt.MsePayload
import Aiobt.MseSession

/-! # Agreement of an MSE handshake

Each side keeps to a role: it is at a known place of the bytes that the other sends, and returns what
both agree on. -/
namespace MseAgreement

open ByteStrings BigEndian DiffieHellman StreamCiphers Rc4 SegmentedReads MseStreams MseHandshake
  MseWire MsePayload MseSession

variable {σ : Type} {M : Coroutine σ Negotiated Failure} {readKey writeKey : RC4}

/-- A returned stream takes up the ciphers where the handshake has left them. -/
def Starts (readKey writeKey : RC4) (n : Negotiated) (tail rest : Bytes) : Prop :=
  n.result.encrypted = true → ∃ dec buffer, n.result.stream = .encrypted writeKey dec buffer ∧
    Follows next readKey tail dec buffer rest

inductive Goes (at_ : σ → Bytes → Bytes → Prop) (ends : Negotiated → Prop) (unsent : σ → Bytes)
    (refuses : Prop) (readKey writeKey : RC4) (st : σ) (tail rest segment : Bytes) :
    Bytes × Outcome σ Negotiated Failure → Prop
  | waits {out st'} : segment ≠ [] → unsent st = out ++ unsent st' → at_ st' tail rest →
      Goes at_ ends unsent refuses readKey writeKey st tail rest segment (out, .waits st')
  | returns {out n} : unsent st = out → ends n → rest <:+ tail →
      Starts readKey writeKey n tail rest →
      Goes at_ ends unsent refuses readKey writeKey st tail rest segment (out, .returns n)
  | raises {e} : refuses →
      Goes at_ ends unsent refuses readKey writeKey st tail rest segment ([], .raises e)

/-- `at_` places a side in the bytes to come, behind which the other sends `tail`; `unsent` is what
the side is still to write before it returns. A side need not listen when the other never returns. -/
structure Role (M : Coroutine σ Negotiated Failure) (readKey writeKey : RC4) where
  at_ : σ → Bytes → Bytes → Prop
  ends : Negotiated → Prop
  unsent : σ → Bytes
  refuses : Prop
  listens : Prop
  extend : ∀ {st tail rest} (more : Bytes), listens → at_ st tail rest → at_ st (tail ++ more) (rest ++ more)
  feed : ∀ {st tail rest segment}, (M.demand st).Serves segment → at_ st tail (segment ++ rest) →
    Goes at_ ends unsent refuses readKey writeKey st tail rest segment (M.feed st segment)
  eof : ∀ {st}, M.demand st ≠ .drained → ∃ e, M.eof st = .raises e

variable (R : Role M readKey writeKey) (bound : ℕ)

/-- The stream of a side that has written `wrote` and read `got`. -/
def Synced (readKey writeKey : RC4) (wrote got : Bytes) (stream : MSEStream) (call : Option Call)
    (sent tail rest : Bytes) : Prop :=
  ∃ dec buffer, stream = .encrypted (skip next writeKey wrote.length) dec buffer ∧
    sent = crypt next writeKey wrote ∧ Follows next readKey tail dec (got ++ buffer) rest ∧
    ∀ k, call = some (.read k) → buffer = []

/-- A side has sent `sent` behind its handshake, the other `tail`, of which it has `rest` to read. -/
inductive SideAt (s : Side σ) (sent tail rest : Bytes) : Prop
  | handshake {st} : s.point = .handshake st → R.at_ st tail rest →
      s.readCount + rest.length ≤ bound + tail.length → s.wrote = [] → s.got = [] → sent = [] →
      SideAt s sent tail rest
  | streaming {n stream call} : s.point = .streaming n stream call → R.ends n → rest <:+ tail →
      (n.result.encrypted = true →
        Synced readKey writeKey s.wrote s.got stream call sent tail rest) →
      SideAt s sent tail rest
  | gone : s.Gone → sent = [] → SideAt s sent tail rest

def Unsent (s : Side σ) (unsent : Bytes) : Prop :=
  match s.point with
  | .handshake st => unsent = R.unsent st
  | .streaming _ _ _ => unsent = []
  | _ => True

variable {R bound} {s s' : Side σ} {sent tail rest pending unsent out : Bytes} {act : Act}

theorem SideAt.hear (h : SideAt R bound s sent tail rest) (hlistens : R.listens) (more : Bytes) :
    SideAt R bound s sent (tail ++ more) (rest ++ more) := by
  cases h with
  | handshake hp hat hcount hwrote hgot hsent =>
    refine .handshake hp (R.extend more hlistens hat) ?_ hwrote hgot hsent
    rw [List.length_append, List.length_append]
    omega
  | streaming hp hends hsuffix hsync =>
    refine .streaming hp hends ?_ fun henc => ?_
    · obtain ⟨front, hfront⟩ := hsuffix
      exact ⟨front, by rw [← hfront, List.append_assoc]⟩
    · obtain ⟨dec, buffer, hstream, hsent, hfollows, hread⟩ := hsync henc
      exact ⟨dec, buffer, hstream, hsent, hfollows.send more, hread⟩
  | gone hgone hsent => exact .gone hgone hsent

theorem SideAt.same {s' : Side σ} (h : SideAt R bound s sent tail rest)
    (hp : s'.point = s.point) (hc : s'.readCount = s.readCount) (hw : s'.wrote = s.wrote)
    (hg : s'.got = s.got) : SideAt R bound s' sent tail rest := by
  cases h with
  | handshake h1 h2 h3 h4 h5 h6 =>
    exact .handshake (hp.trans h1) h2 (by rwa [hc]) (hw.trans h4) (hg.trans h5) h6
  | streaming h1 h2 h3 h4 => exact .streaming (hp.trans h1) h2 h3 (by rwa [hw, hg])
  | gone h1 h2 =>
    refine .gone ?_ h2
    unfold Side.Gone at h1 ⊢
    rwa [hp]

def CallSynced (readKey writeKey : RC4) (wrote got sent tail : Bytes) : ReadOutcome → Bytes → Prop
  | .waits r, rest => Synced readKey writeKey wrote got r.stream (some r.call) sent tail rest
  | .returns (out, stream), rest =>
    Synced readKey writeKey wrote (got ++ out) stream none sent tail rest
  | .raises _, _ => False

variable {wrote got buffer : Bytes} {dec : RC4}

theorem readexactlyLoop_synced (n : ℕ) (hsent : sent = crypt next writeKey wrote)
    (hfollows : Follows next readKey tail dec (got ++ buffer) rest) :
    CallSynced readKey writeKey wrote got sent tail
      (readexactlyLoop (skip next writeKey wrote.length) dec buffer n) rest := by
  unfold readexactlyLoop
  split
  · exact ⟨dec, buffer, rfl, hsent, hfollows, by simp⟩
  · refine ⟨dec, buffer.drop n, rfl, hsent, ?_, by simp⟩
    rwa [List.append_assoc, List.take_append_drop]

theorem startRead_synced {stream : MSEStream} (call : Call)
    (h : Synced readKey writeKey wrote got stream none sent tail rest) :
    CallSynced readKey writeKey wrote got sent tail (startRead stream call) rest := by
  obtain ⟨dec, buffer, rfl, hsent, hfollows, -⟩ := h
  cases call with
  | readexactly n => exact readexactlyLoop_synced n hsent hfollows
  | read n =>
    rw [startRead]
    split
    · refine ⟨dec, buffer.drop n, rfl, hsent, ?_, by simp⟩
      rwa [List.append_assoc, List.take_append_drop]
    · next hbuffer =>
      exact ⟨dec, buffer, rfl, hsent, hfollows, fun _ _ => not_not.mp hbuffer⟩

theorem feed_synced {stream : MSEStream} {call : Call} {segment : Bytes}
    (h : Synced readKey writeKey wrote got stream (some call) sent tail (segment ++ rest)) :
    CallSynced readKey writeKey wrote got sent tail (reads.feed ⟨stream, call⟩ segment).2 rest := by
  obtain ⟨dec, buffer, rfl, hsent, hfollows, hread⟩ := h
  have hnext := hfollows.read
  cases call with
  | readexactly n =>
    rw [List.append_assoc] at hnext
    simp only [reads, process_fst, process_snd]
    exact readexactlyLoop_synced n hsent hnext
  | read n =>
    obtain rfl : buffer = [] := hread n rfl
    rw [List.append_nil] at hnext
    simp only [reads, process_fst, process_snd]
    exact ⟨_, [], rfl, hsent, by rwa [List.append_nil], by simp⟩

theorem SideAt.of_handshake {st : σ} (h : SideAt R bound s sent tail rest)
    (hp : s.point = .handshake st) :
    R.at_ st tail rest ∧ s.readCount + rest.length ≤ bound + tail.length ∧ s.wrote = [] ∧
      s.got = [] ∧ sent = [] := by
  cases h with
  | handshake h1 h2 h3 h4 h5 h6 =>
    obtain rfl := Point.handshake.inj (h1.symm.trans hp)
    exact ⟨h2, h3, h4, h5, h6⟩
  | streaming h1 _ _ _ => cases h1.symm.trans hp
  | gone h1 _ =>
    rw [Side.Gone, hp] at h1
    exact h1.elim

theorem SideAt.of_streaming {n : Negotiated} {stream : MSEStream} {call : Option Call}
    (h : SideAt R bound s sent tail rest) (hp : s.point = .streaming n stream call) :
    R.ends n ∧ rest <:+ tail ∧ (n.result.encrypted = true →
      Synced readKey writeKey s.wrote s.got stream call sent tail rest) := by
  cases h with
  | handshake h1 _ _ _ _ _ => cases h1.symm.trans hp
  | streaming h1 h2 h3 h4 =>
    cases h1.symm.trans hp
    exact ⟨h2, h3, h4⟩
  | gone h1 _ =>
    rw [Side.Gone, hp] at h1
    exact h1.elim

/-- What a side does in a step: it writes some of what it still owes, or more payload. -/
def Advances (R : Role M readKey writeKey) (bound : ℕ) (act : Act)
    (sent tail pending unsent out : Bytes) (s' : Side σ) : Prop :=
  ∃ sent' unsent', SideAt R bound s' sent' tail (s'.incoming ++ pending) ∧ Unsent R s' unsent' ∧
    (sent' = sent ∧ unsent = out ++ unsent' ∨
      sent' = sent ++ out ∧ unsent = [] ∧ unsent' = [] ∧ ∃ n, R.ends n) ∧
    (s'.Gone → s'.point = .aborted ∨ act = .eof ∨ R.refuses)

theorem receives_handshake {st : σ} {k : ℕ}
    (h : SideAt R bound s sent tail (s.incoming ++ pending)) (hp : s.point = .handshake st)
    (hunsent : Unsent R s unsent) (hserves : (M.demand st).Serves (s.incoming.take k)) :
    Advances R bound (.receives k) sent tail pending unsent (M.feed st (s.incoming.take k)).1
      { s with
        point := .ofOutcome (M.feed st (s.incoming.take k)).2
        incoming := s.incoming.drop k
        readCount := s.readCount + 1 } := by
  obtain ⟨hat, hcount, hwrote, hgot, rfl⟩ := h.of_handshake hp
  rw [Unsent, hp] at hunsent
  simp only at hunsent
  have hsplit : s.incoming ++ pending = s.incoming.take k ++ (s.incoming.drop k ++ pending) := by
    rw [← List.append_assoc, List.take_append_drop]
  rw [hsplit] at hat hcount
  have hgoes := R.feed hserves hat
  generalize M.feed st (s.incoming.take k) = step at hgoes ⊢
  cases hgoes with
  | @waits out st' hne howes hat' =>
    refine ⟨[], R.unsent st', .handshake rfl hat' ?_ hwrote hgot rfl, rfl, Or.inl ⟨rfl, ?_⟩, ?_⟩
    · have hpos := List.length_pos_iff.mpr hne
      rw [List.length_append] at hcount
      simp only
      omega
    · rw [hunsent, howes]
    · intro hgone
      exact hgone.elim
  | @returns out n howes hends hsuffix hstarts =>
    refine ⟨[], [], .streaming rfl hends hsuffix ?_, rfl, Or.inl ⟨rfl, ?_⟩, ?_⟩
    · intro henc
      obtain ⟨dec, buffer, hstream, hfollows⟩ := hstarts henc
      refine ⟨dec, buffer, ?_, ?_, ?_, by simp⟩
      · simpa [hwrote] using hstream
      · simp [hwrote]
      · simpa [hgot] using hfollows
    · rw [hunsent, howes, List.append_nil]
    · intro hgone
      exact hgone.elim
  | raises hrefuses =>
    exact ⟨[], unsent, .gone trivial rfl, trivial, Or.inl ⟨rfl, rfl⟩, fun _ => Or.inr (Or.inr hrefuses)⟩

/-- A call of a stream that goes on, or gives its bytes. -/
theorem goOn_advances {n : Negotiated} {stream : MSEStream} {call : Option Call} {o : ReadOutcome}
    (hp : s.point = .streaming n stream call) (hunsent : Unsent R s unsent) (hends : R.ends n)
    (hsuffix : s.incoming ++ pending <:+ tail)
    (hsync : n.result.encrypted = true → CallSynced readKey writeKey s.wrote s.got sent tail o
      (s.incoming ++ pending)) (hstep : s.goOn n o = some s') :
    Advances R bound act sent tail pending unsent [] s' := by
  rw [Unsent, hp] at hunsent
  simp only at hunsent
  subst hunsent
  cases o with
  | waits r =>
    obtain rfl := Option.some.inj hstep
    exact ⟨sent, [], .streaming rfl hends hsuffix hsync, rfl, Or.inl ⟨rfl, rfl⟩, False.elim⟩
  | returns r =>
    obtain rfl := Option.some.inj hstep
    exact ⟨sent, [], .streaming rfl hends hsuffix hsync, rfl, Or.inl ⟨rfl, rfl⟩, False.elim⟩
  | raises e => cases hstep

theorem writes_advances {n : Negotiated} {stream : MSEStream} {call : Option Call} {data : Bytes}
    (h : SideAt R bound s sent tail (s.incoming ++ pending))
    (hp : s.point = .streaming n stream call) (hunsent : Unsent R s unsent) :
    Advances R bound (.writes data) sent tail pending unsent (stream.write data).1
      { s with point := .streaming n (stream.write data).2 call, wrote := s.wrote ++ data } := by
  obtain ⟨hends, hsuffix, hsync⟩ := h.of_streaming hp
  rw [Unsent, hp] at hunsent
  simp only at hunsent
  subst hunsent
  refine ⟨sent ++ (stream.write data).1, [], .streaming rfl hends hsuffix ?_, rfl,
    Or.inr ⟨rfl, rfl, rfl, n, hends⟩, False.elim⟩
  intro henc
  obtain ⟨dec, buffer, rfl, hsent, hfollows, hread⟩ := hsync henc
  refine ⟨dec, buffer, ?_, ?_, hfollows, hread⟩
  · simp only [MSEStream.write, process_snd, List.length_append, skip_add]
  · simp only [MSEStream.write, process_fst, hsent]
    exact (crypt_append next writeKey s.wrote data).symm

theorem SideAt.step (h : SideAt R bound s sent tail (s.incoming ++ pending))
    (hunsent : Unsent R s unsent) (hstep : s.step M act = some (out, s')) :
    Advances R bound act sent tail pending unsent out s' := by
  cases act with
  | receives k =>
    simp only [Side.step] at hstep
    split at hstep
    · next st hp =>
      split at hstep
      · next hserves =>
        cases hstep
        exact receives_handshake h hp hunsent hserves
      · cases hstep
    · next n stream call hp =>
      split at hstep
      · obtain ⟨s₁, hgo, heq⟩ := Option.map_eq_some_iff.mp hstep
        cases heq
        obtain ⟨hends, hsuffix, hsync⟩ := h.of_streaming hp
        have hsplit : s.incoming ++ pending =
            s.incoming.take k ++ (s.incoming.drop k ++ pending) := by
          rw [← List.append_assoc, List.take_append_drop]
        rw [hsplit] at hsuffix hsync
        refine goOn_advances (s := { s with incoming := s.incoming.drop k }) hp hunsent hends ?_ ?_ hgo
        · exact (List.suffix_append _ _).trans hsuffix
        · intro henc
          exact feed_synced (hsync henc)
      · cases hstep
    · cases hstep
  | eof =>
    simp only [Side.step] at hstep
    split at hstep
    · next st hp =>
      split at hstep
      · cases hstep
      · next hdemand =>
        cases hstep
        obtain ⟨e, he⟩ := R.eof hdemand
        obtain ⟨-, -, -, -, rfl⟩ := h.of_handshake hp
        rw [he]
        exact ⟨[], unsent, .gone trivial rfl, trivial, Or.inl ⟨rfl, rfl⟩,
          fun _ => Or.inr (Or.inl rfl)⟩
    · cases hstep
  | aborts =>
    simp only [Side.step] at hstep
    split at hstep
    · next st hp =>
      cases hstep
      obtain ⟨-, -, -, -, rfl⟩ := h.of_handshake hp
      exact ⟨[], unsent, .gone trivial rfl, trivial, Or.inl ⟨rfl, rfl⟩, fun _ => Or.inl rfl⟩
    · cases hstep
  | writes data =>
    simp only [Side.step] at hstep
    split at hstep
    · next n stream call hp =>
      cases hstep
      exact writes_advances h hp hunsent
    · cases hstep
  | calls call =>
    simp only [Side.step] at hstep
    split at hstep
    · next n stream hp =>
      obtain ⟨s₁, hgo, heq⟩ := Option.map_eq_some_iff.mp hstep
      cases heq
      obtain ⟨hends, hsuffix, hsync⟩ := h.of_streaming hp
      exact goOn_advances hp hunsent hends hsuffix
        (fun henc => startRead_synced call (hsync henc)) hgo
    · cases hstep

theorem step_not_aborted (hstep : s.step M act = some (out, s')) : s.point ≠ .aborted := by
  intro hp
  cases act <;> simp [Side.step, hp] at hstep

section Link

variable {a : InitiatorCall} {b : ReceiverCall} {keyA keyB : RC4}

/-- Both sides keep to their roles; what one is still to write is to come for the other. -/
structure Linked (A : Role (mseInitiate a) keyB keyA) (B : Role (mseReceive b) keyA keyB)
    (boundA boundB : ℕ) (l : Link) (sentA sentB unsentA unsentB : Bytes) : Prop where
  initiator : SideAt A boundA l.initiator sentA sentB (l.initiator.incoming ++ unsentB)
  receiver : SideAt B boundB l.receiver sentB sentA (l.receiver.incoming ++ unsentA)
  unsentA : Unsent A l.initiator unsentA
  unsentB : Unsent B l.receiver unsentB
  listens : ((∃ n, B.ends n) → A.listens) ∧ ((∃ n, A.ends n) → B.listens)
  gone : l.initiator.Gone ∨ l.receiver.Gone →
    l.initiator.point = .aborted ∨ l.receiver.point = .aborted ∨ A.refuses ∨ B.refuses

variable {A : Role (mseInitiate a) keyB keyA} {B : Role (mseReceive b) keyA keyB}
  {boundA boundB : ℕ} {l l' : Link} {sentA sentB unsentA unsentB : Bytes}

theorem SideAt.hears {σ : Type} {M : Coroutine σ Negotiated Failure} {readKey writeKey : RC4}
    {R : Role M readKey writeKey} {bound : ℕ} {s : Side σ}
    {sent tail tail' unsent unsent' out : Bytes}
    (h : SideAt R bound s sent tail (s.incoming ++ unsent))
    (hout : tail' = tail ∧ unsent = out ++ unsent' ∨
      tail' = tail ++ out ∧ unsent = [] ∧ unsent' = [] ∧ R.listens) :
    SideAt R bound (s.hear out) sent tail' ((s.hear out).incoming ++ unsent') := by
  rcases hout with ⟨rfl, rfl⟩ | ⟨rfl, rfl, rfl, hlistens⟩
  · rw [← List.append_assoc] at h
    exact h.same rfl rfl rfl rfl
  · have hmore := h.hear hlistens out
    rw [List.append_nil] at hmore
    rw [List.append_nil]
    exact hmore.same rfl rfl rfl rfl

theorem Unsent.hear {σ : Type} {M : Coroutine σ Negotiated Failure} {readKey writeKey : RC4}
    {R : Role M readKey writeKey} {s : Side σ} {unsent : Bytes} (h : Unsent R s unsent) (out : Bytes) :
    Unsent R (s.hear out) unsent := h

theorem Linked.step (h : Linked A B boundA boundB l sentA sentB unsentA unsentB)
    {act : Party × Act} (hstep : l.step a b act = some l') :
    ∃ sentA' sentB' unsentA' unsentB', Linked A B boundA boundB l' sentA' sentB' unsentA' unsentB' := by
  obtain ⟨party, act⟩ := act
  cases party with
  | initiator =>
    simp only [Link.step] at hstep
    split at hstep
    · cases hstep
    · next heof =>
      obtain ⟨⟨out, s'⟩, hside, heq⟩ := Option.map_eq_some_iff.mp hstep
      cases heq
      obtain ⟨sentA', unsentA', hs', hun', hout, hgone⟩ := h.initiator.step h.unsentA hside
      have hout' := hout.imp_right fun ⟨h1, h2, h3, hends⟩ =>
        And.intro h1 (And.intro h2 (And.intro h3 (h.listens.2 hends)))
      refine ⟨sentA', sentB, unsentA', unsentB, hs', h.receiver.hears hout', hun',
        h.unsentB.hear out, h.listens, ?_⟩
      have hnot := step_not_aborted hside
      rintro (hg | hg)
      · rcases hgone hg with haborted | rfl | hrefuses
        · exact Or.inl haborted
        · have hother := (not_not.mp fun hno => heof ⟨rfl, hno⟩).1
          rcases h.gone (Or.inr hother) with h1 | h2
          · exact absurd h1 hnot
          · exact Or.inr h2
        · exact Or.inr (Or.inr (Or.inl hrefuses))
      · rcases h.gone (Or.inr hg) with h1 | h2
        · exact absurd h1 hnot
        · exact Or.inr h2
  | receiver =>
    simp only [Link.step] at hstep
    split at hstep
    · cases hstep
    · next heof =>
      obtain ⟨⟨out, s'⟩, hside, heq⟩ := Option.map_eq_some_iff.mp hstep
      cases heq
      obtain ⟨sentB', unsentB', hs', hun', hout, hgone⟩ := h.receiver.step h.unsentB hside
      have hout' := hout.imp_right fun ⟨h1, h2, h3, hends⟩ =>
        And.intro h1 (And.intro h2 (And.intro h3 (h.listens.1 hends)))
      refine ⟨sentA, sentB', unsentA, unsentB', h.initiator.hears hout', hs', h.unsentA.hear out,
        hun', h.listens, ?_⟩
      have hnot := step_not_aborted hside
      have hpast : l.initiator.Gone ∨ l.receiver.Gone →
          l.initiator.point = .aborted ∨ A.refuses ∨ B.refuses := by
        intro hg
        rcases h.gone hg with h1 | h1 | h1
        · exact Or.inl h1
        · exact absurd h1 hnot
        · exact Or.inr h1
      rintro (hg | hg)
      · exact (hpast (Or.inl hg)).imp_right Or.inr
      · rcases hgone hg with haborted | rfl | hrefuses
        · exact Or.inr (Or.inl haborted)
        · have hother := (not_not.mp fun hno => heof ⟨rfl, hno⟩).1
          exact (hpast (Or.inl hother)).imp_right Or.inr
        · exact Or.inr (Or.inr (Or.inr hrefuses))

theorem Linked.run (h : Linked A B boundA boundB l sentA sentB unsentA unsentB)
    {acts : List (Party × Act)} (hrun : l.run a b acts = some l') :
    ∃ sentA' sentB' unsentA' unsentB', Linked A B boundA boundB l' sentA' sentB' unsentA' unsentB' :=
  MseSession.run_invariant a b
    (I := fun l => ∃ sA sB uA uB, Linked A B boundA boundB l sA sB uA uB)
    (fun _ _ _ ⟨_, _, _, _, h⟩ hstep => h.step hstep) ⟨_, _, _, _, h⟩ hrun

end Link

section Roles

variable (a : InitiatorCall) (b : ReceiverCall)

/-- What `mse_initiate` puts into a handshake: no initial payload. -/
def offerOf : Offer where
  privateKey := a.privateKey
  infoHash := a.infoHash
  padA := a.padA
  padC := a.padC
  cryptoProvide := cryptoProvide a.policy
  provide_lt := by cases a.policy <;> decide
  ia := []
  ia_lt := by decide

def keyFromA : RC4 := skip next (receiverDec b (offerOf a)) (offerOf a).text.length
def keyFromB : RC4 := skip next (receiverEnc b (offerOf a)) (14 + b.padD.1.length)

def response : Bytes :=
  match selectCrypto b.policy (cryptoProvide a.policy) with
  | .ok cryptoSelect => crypt next (receiverEnc b (offerOf a)) (responseText cryptoSelect b.padD)
  | .error _ => []

def receiverUnsent : Receiving → Bytes
  | .publicKey => (dhKeypair b.privateKey).2 ++ b.padB ++ response a b
  | .responding _ => []
  | _ => response a b

def ReceiverEnds (n : Negotiated) : Prop :=
  selectCrypto b.policy (cryptoProvide a.policy) = .ok n.cryptoSelect ∧
    (n.result.encrypted = true ↔ n.cryptoSelect = cryptoRc4) ∧
    n.result.infoHash = some a.infoHash

variable {a b}

theorem receiverUnsent_offer {st : Receiving} (hidle : ¬ Responding st) (hst : st ≠ .publicKey) :
    receiverUnsent a b st = response a b := by
  cases st with
  | publicKey => exact absurd rfl hst
  | responding n => exact absurd ⟨n, rfl⟩ hidle
  | _ => rfl

theorem follows_leftover {key : RC4} {leftover rest tail : Bytes} (h : leftover ++ rest = tail) :
    Follows next key tail (skip next key leftover.length) (crypt next key leftover) rest := by
  rw [← h]
  exact (Follows.start _).read

theorem ReceiverAt.hear {o : Offer} {tail rest : Bytes} {st : Receiving} (more : Bytes)
    (h : ReceiverAt b o tail (.waits st) rest) :
    ReceiverAt b o (tail ++ more) (.waits st) (rest ++ more) := by
  cases h with
  | publicKey h =>
    refine .publicKey ?_
    rw [h]
    simp only [Offer.wire, List.append_assoc]
  | scanning hpos h =>
    refine .scanning hpos ?_
    rw [← List.append_assoc, h]
    simp only [List.append_assoc]
  | header hlen h =>
    refine .header hlen ?_
    rw [← List.append_assoc, h, List.append_assoc]
  | padding hlen h =>
    refine .padding hlen ?_
    rw [← List.append_assoc, h, List.append_assoc]
  | payload hlen h =>
    refine .payload hlen ?_
    rw [← List.append_assoc, h, List.append_assoc]
  | done h hout =>
    refine .done ?_ hout
    rw [← List.append_assoc, h]

theorem receiverDone_goes {st : Receiving} {segment leftover tail rest : Bytes}
    (hne : segment ≠ []) (hidle : ¬ Responding st) (hst : st ≠ .publicKey)
    (hrest : leftover ++ rest = tail) :
    Goes (fun st tail rest => ReceiverAt b (offerOf a) tail (.waits st) rest) (ReceiverEnds a b)
      (receiverUnsent a b) (∃ e, selectCrypto b.policy (cryptoProvide a.policy) = .error e)
      (keyFromA a b) (keyFromB a b) st tail rest segment (receiverDone b (offerOf a) leftover) := by
  cases hsel : selectCrypto b.policy (cryptoProvide a.policy) with
  | ok cryptoSelect =>
    have hdone := receiverDone_ok (c := b) (o := offerOf a) hsel leftover
    rw [hdone]
    refine .waits hne ?_ (.done hrest (by rw [hdone]))
    rw [receiverUnsent_offer hidle hst, response, hsel]
    exact (List.append_nil _).symm
  | error e =>
    have hdone : receiverDone b (offerOf a) leftover = ([], .raises e) := by
      have hprovide : (offerOf a).cryptoProvide = cryptoProvide a.policy := rfl
      simp only [receiverDone, respond, hprovide, hsel]
    rw [hdone]
    exact .raises ⟨e, rfl⟩

/-- The response is sent: the stream takes up the ciphers. -/
theorem receiver_ends {n : Negotiated} {tail rest : Bytes}
    (h : ReceiverAt b (offerOf a) tail (.waits (.responding n)) rest) :
    ReceiverEnds a b n ∧ rest <:+ tail ∧ Starts (keyFromA a b) (keyFromB a b) n tail rest := by
  cases h with
  | @done leftover _ _ hrest hout =>
    cases hsel : selectCrypto b.policy (cryptoProvide a.policy) with
    | error e =>
      have hprovide : (offerOf a).cryptoProvide = cryptoProvide a.policy := rfl
      simp only [receiverDone, respond, hprovide, hsel] at hout
      cases hout
    | ok cryptoSelect =>
      rw [receiverDone_ok (c := b) (o := offerOf a) hsel leftover] at hout
      obtain rfl := Receiving.responding.inj (Outcome.waits.inj hout)
      refine ⟨?_, ⟨leftover, hrest⟩, ?_⟩
      · unfold ReceiverEnds receiverNegotiated
        refine ⟨hsel, ?_, ?_⟩ <;> by_cases h : cryptoSelect = cryptoRc4 <;> simp [h, offerOf]
      · intro henc
        simp only [receiverNegotiated] at henc ⊢
        by_cases h : cryptoSelect = cryptoRc4
        · rw [if_pos h]
          exact ⟨_, _, rfl, follows_leftover hrest⟩
        · rw [if_neg h] at henc
          cases henc

theorem receiver_segment_ne {o : Offer} {tail rest segment : Bytes} {st : Receiving}
    (hidle : ¬ Responding st) (hserves : ((mseReceive b).demand st).Serves segment)
    (h : ReceiverAt b o tail (.waits st) rest) : segment ≠ [] := by
  rintro rfl
  cases h with
  | publicKey _ => cases hserves
  | scanning _ _ => exact absurd (hserves.2 rfl) (by decide)
  | header hlen _ =>
    have := hserves.2 rfl
    omega
  | padding hlen _ =>
    have := hserves.2 rfl
    omega
  | payload hlen _ =>
    have := hserves.2 rfl
    omega
  | done _ hout => exact hidle (done_waits hout.symm)

variable (a b) in
def receiverRole (hknown : Recognised b (offerOf a)) :
    Role (mseReceive b) (keyFromA a b) (keyFromB a b) where
  at_ st tail rest := ReceiverAt b (offerOf a) tail (.waits st) rest
  ends := ReceiverEnds a b
  unsent := receiverUnsent a b
  refuses := ∃ e, selectCrypto b.policy (cryptoProvide a.policy) = .error e
  listens := True
  extend more _ h := ReceiverAt.hear more h
  feed := by
    intro st tail rest segment hserves h
    by_cases hst : st = .publicKey
    · subst hst
      have hne := receiver_segment_ne (fun ⟨_, h⟩ => nomatch h) hserves h
      obtain ⟨st', hfeed, hidle, hst', hat⟩ := h.feed_publicKey hserves
      rw [hfeed]
      refine .waits hne ?_ hat
      rw [receiverUnsent_offer hidle hst']
      rfl
    · by_cases hidle : Responding st
      · obtain ⟨n, rfl⟩ := hidle
        obtain rfl : segment = [] := hserves
        obtain ⟨hends, hsuffix, hstarts⟩ := receiver_ends h
        exact .returns rfl hends hsuffix hstarts
      · have hne := receiver_segment_ne hidle hserves h
        have hstep := h.feed_offer hknown hst hidle
        generalize (mseReceive b).feed st segment = step at hstep ⊢
        cases hstep with
        | @reads st' _ hat hidle' hst' =>
          refine .waits hne ?_ hat
          rw [receiverUnsent_offer hidle hst, receiverUnsent_offer hidle' hst']
          rfl
        | done hrest => exact receiverDone_goes hne hidle hst hrest
  eof := by
    intro st hdemand
    cases st with
    | responding n => exact absurd rfl hdemand
    | publicKey => exact ⟨_, rfl⟩
    | scanning _ _ _ => exact ⟨_, rfl⟩
    | header _ _ _ _ => exact ⟨_, rfl⟩
    | padding _ _ _ _ _ _ => exact ⟨_, rfl⟩
    | payload _ _ _ _ _ _ => exact ⟨_, rfl⟩

theorem offer_text : (offerOf a).text =
    vc ++ toBytes 4 (cryptoProvide a.policy) ++ toBytes 2 a.padC.1.length ++ a.padC ++ toBytes 2 0 := by
  simp [Offer.text, header, offerOf]

theorem cryptoBlock_fst (secret : Bytes) : (a.cryptoBlock secret).1 =
    req1Hash secret ++ (obfuscatedHash a.infoHash secret ++
      crypt next (cipherA secret a.infoHash) (offerOf a).text) := by
  simp only [InitiatorCall.cryptoBlock, deriveKeys_true, process_fst, offer_text, List.append_assoc]

theorem receiverSecret_eq : receiverSecret b (offerOf a) = sharedSecret a.privateKey b.privateKey :=
  sharedSecret_comm _ _

variable (a b) in
def initiatorUnsent : Initiating → Bytes
  | .publicKey => (a.cryptoBlock (sharedSecret a.privateKey b.privateKey)).1
  | _ => []

theorem readResponse_ne_publicKey {policy : EncryptionPolicy} {enc dec : RC4} {data : Bytes} :
    readResponse policy enc dec data ≠ .waits .publicKey := by
  intro h
  unfold readResponse at h
  split at h
  · cases h
  · simp only at h
    split at h
    · cases h
    · unfold readPadD at h
      split at h
      · cases h
      · exact initiatorResult_finished _ _ _ _ _ _ h

/-- The initiator does not go back to the public value, and owes nothing once it has read it. -/
theorem initiator_feed_unsent {st st' : Initiating} {segment : Bytes} (hst : st ≠ .publicKey)
    (h : ((mseInitiate a).feed st segment).2 = .waits st') : initiatorUnsent a b st' = [] := by
  cases st' with
  | publicKey =>
    cases st with
    | publicKey => exact absurd rfl hst
    | scanning secret enc scanBuf =>
      simp only [mseInitiate, scanForVc] at h
      split at h
      · exact absurd h readResponse_ne_publicKey
      · split at h <;> cases h
    | header enc dec data => exact absurd h readResponse_ne_publicKey
    | padding enc dec cryptoSelect padDLen data =>
      simp only [mseInitiate, readPadD] at h
      split at h
      · cases h
      · exact absurd h (initiatorResult_finished _ _ _ _ _ _)
  | _ => rfl

theorem initiator_feed_fst {st : Initiating} (segment : Bytes) (hst : st ≠ .publicKey) :
    ((mseInitiate a).feed st segment).1 = [] := by
  cases st with
  | publicKey => exact absurd rfl hst
  | _ => rfl

theorem initiator_eof (st : Initiating) : ∃ e, (mseInitiate a).eof st = .raises e := by
  cases st <;> exact ⟨_, rfl⟩

variable (b) in
def answerOf (cryptoSelect : ℕ) (h : cryptoSelect < 256 ^ 4) : Answer :=
  ⟨b.privateKey, b.padB, b.padD, cryptoSelect, h⟩

theorem InitiatorAt.hear {r : Answer} {tail rest : Bytes} {st : Initiating} (more : Bytes)
    (h : InitiatorAt a r tail (.waits st) rest) :
    InitiatorAt a r (tail ++ more) (.waits st) (rest ++ more) := by
  cases h with
  | publicKey h =>
    refine .publicKey ?_
    rw [h]
    simp only [Answer.wire, List.append_assoc]
  | scanning hlen h =>
    refine .scanning hlen ?_
    rw [← List.append_assoc, h]
    simp only [List.append_assoc]
  | header hlen h =>
    refine .header hlen ?_
    rw [← List.append_assoc, h, List.append_assoc]
  | padding hlen h =>
    refine .padding hlen ?_
    rw [← List.append_assoc, h, List.append_assoc]
  | done _ ho => exact absurd ho.symm (initiatorResult_finished _ _ _ _ _ _)

theorem initiator_segment_ne {r : Answer} {tail rest segment : Bytes} {st : Initiating}
    (hserves : ((mseInitiate a).demand st).Serves segment)
    (h : InitiatorAt a r tail (.waits st) rest) : segment ≠ [] := by
  rintro rfl
  cases h with
  | publicKey _ => cases hserves
  | scanning _ _ => exact absurd (hserves.2 rfl) (by decide)
  | header hlen _ =>
    have := hserves.2 rfl
    omega
  | padding hlen _ =>
    have := hserves.2 rfl
    omega
  | done _ ho => exact absurd ho.symm (initiatorResult_finished _ _ _ _ _ _)

theorem selected_suits {pa pb : EncryptionPolicy} {cryptoSelect : ℕ}
    (h : selectCrypto pb (cryptoProvide pa) = .ok cryptoSelect) :
    cryptoSelect = cryptoRc4 ∧ pa ≠ .disabled ∨ cryptoSelect = cryptoPlaintext ∧ pa ≠ .forced := by
  cases pa <;> cases pb <;> simp [selectCrypto, cryptoProvide, cryptoRc4, cryptoPlaintext] at h ⊢ <;>
    simp [← h]

theorem initiatorEnc_eq {r : Answer} (hr : r.privateKey = b.privateKey) :
    initiatorEnc a r = keyFromA a b := by
  have hlen : (offerOf a).text.length = 16 + a.padC.1.length := by
    rw [Offer.length_text]
    rfl
  rw [keyFromA, receiverDec, receiverSecret_eq, hlen, initiatorEnc, initiatorSecret, hr]
  rfl

theorem initiatorDec_eq {r : Answer} (hr : r.privateKey = b.privateKey) :
    initiatorDec a r = receiverEnc b (offerOf a) := by
  rw [receiverEnc, receiverSecret_eq, initiatorDec, initiatorSecret, hr]
  rfl

def InitiatorEnds (cryptoSelect : ℕ) (n : Negotiated) : Prop :=
  n.cryptoSelect = cryptoSelect ∧ (n.result.encrypted = true ↔ cryptoSelect = cryptoRc4)

/-- The initiator has its answer: the stream takes up the ciphers. -/
theorem initiator_done {cryptoSelect : ℕ} (h4 : cryptoSelect < 256 ^ 4) {leftover tail rest : Bytes}
    (hsel : selectCrypto b.policy (cryptoProvide a.policy) = .ok cryptoSelect)
    (hrest : leftover ++ rest = tail) :
    ∃ n, initiatorResult a.policy (initiatorEnc a (answerOf b cryptoSelect h4))
        (skip next (initiatorDec a (answerOf b cryptoSelect h4)) (14 + b.padD.1.length)) cryptoSelect
        leftover = .returns n ∧
      InitiatorEnds cryptoSelect n ∧ Starts (keyFromB a b) (keyFromA a b) n tail rest := by
  rw [initiatorEnc_eq (b := b) rfl, initiatorDec_eq (b := b) rfl, initiatorResult]
  rcases selected_suits hsel with ⟨rfl, hpolicy⟩ | ⟨rfl, hpolicy⟩
  · rw [if_pos rfl, if_neg hpolicy]
    refine ⟨_, rfl, ⟨rfl, by simp⟩, fun _ => ?_⟩
    rw [process_fst, process_snd]
    exact ⟨_, _, rfl, follows_leftover hrest⟩
  · rw [if_neg (by decide), if_pos rfl, if_neg hpolicy]
    refine ⟨_, rfl, ⟨rfl, by decide⟩, ?_⟩
    intro hselected
    cases hselected

variable (a b) in
def initiatorRole {cryptoSelect : ℕ} (h4 : cryptoSelect < 256 ^ 4)
    (hsel : selectCrypto b.policy (cryptoProvide a.policy) = .ok cryptoSelect)
    (hmarker : FirstBehind (crypt next (initiatorDec a (answerOf b cryptoSelect h4)) vc) b.padB) :
    Role (mseInitiate a) (keyFromB a b) (keyFromA a b) where
  at_ st tail rest := InitiatorAt a (answerOf b cryptoSelect h4) tail (.waits st) rest
  ends := InitiatorEnds cryptoSelect
  unsent := initiatorUnsent a b
  refuses := False
  listens := True
  extend more _ h := InitiatorAt.hear more h
  feed := by
    intro st tail rest segment hserves h
    have hne := initiator_segment_ne hserves h
    have hnext := h.feed hmarker hserves
    by_cases hst : st = .publicKey
    · subst hst
      have hsegment : segment = (dhKeypair b.privateKey).2 := by
        cases h with
        | publicKey hrest =>
          rw [Answer.wire] at hrest
          have hlen : segment.length = (dhKeypair (answerOf b cryptoSelect h4).privateKey).2.length := by
            rw [length_dhKeypair]
            exact hserves
          exact (List.append_inj hrest hlen).1
        | done _ ho => exact absurd ho.symm (initiatorResult_finished _ _ _ _ _ _)
      have hfeed : (mseInitiate a).feed .publicKey (dhKeypair b.privateKey).2 =
          ((a.cryptoBlock (sharedSecret a.privateKey b.privateKey)).1,
            .waits (.scanning (sharedSecret a.privateKey b.privateKey)
              (a.cryptoBlock (sharedSecret a.privateKey b.privateKey)).2 [])) := rfl
      rw [hsegment, hfeed] at hnext ⊢
      rw [hsegment] at hne
      refine .waits hne ?_ hnext
      exact (List.append_nil _).symm
    · have hnone : initiatorUnsent a b st = [] := by
        cases st with
        | publicKey => exact absurd rfl hst
        | _ => rfl
      have hfst := initiator_feed_fst (a := a) segment hst
      have howes : ∀ st', ((mseInitiate a).feed st segment).2 = .waits st' →
          initiatorUnsent a b st' = [] := fun _ => initiator_feed_unsent hst
      generalize (mseInitiate a).feed st segment = step at hnext hfst howes ⊢
      obtain ⟨out, o⟩ := step
      simp only at hfst
      subst hfst
      cases o with
      | waits st' =>
        refine .waits hne ?_ hnext
        rw [hnone, howes st' rfl]
        rfl
      | returns n =>
        cases hnext with
        | done hrest ho =>
          obtain ⟨n', hn', hends, hstarts⟩ := initiator_done h4 hsel hrest
          obtain rfl := Outcome.returns.inj (ho.trans hn')
          exact .returns hnone hends ⟨_, hrest⟩ hstarts
      | raises e =>
        cases hnext with
        | done hrest ho =>
          obtain ⟨n', hn', -⟩ := initiator_done h4 hsel hrest
          cases ho.trans hn'
  eof := fun _ => initiator_eof _

def Starved (a : InitiatorCall) (b : ReceiverCall) (st : Initiating) (tail rest : Bytes) : Prop :=
  tail = [] ∧ (st = .publicKey ∧ rest = (dhKeypair b.privateKey).2 ++ b.padB ∨
    ∃ enc scanBuf, st = .scanning (sharedSecret a.privateKey b.privateKey) enc scanBuf ∧
      scanBuf ++ rest = b.padB)

theorem scanForVc_starved {enc : RC4} {scanBuf rest : Bytes}
    (hmarker : FirstBehind
      (crypt next (cipherB (sharedSecret a.privateKey b.privateKey) a.infoHash) vc) b.padB)
    (h : scanBuf ++ rest = b.padB) :
    scanForVc a (sharedSecret a.privateKey b.privateKey) enc scanBuf =
      .waits (.scanning (sharedSecret a.privateKey b.privateKey) enc scanBuf) := by
  have hlen := congrArg List.length h
  rw [List.length_append] at hlen
  have hpad := b.padB.2
  have hvc : (crypt next (cipherB (sharedSecret a.privateKey b.privateKey) a.infoHash) vc).length = 8 :=
    length_crypt _ _ vc
  have hwire : scanBuf ++ (rest ++ crypt next
      (cipherB (sharedSecret a.privateKey b.privateKey) a.infoHash) vc) = b.padB.1 ++ (crypt next
        (cipherB (sharedSecret a.privateKey b.privateKey) a.infoHash) vc ++ []) := by
    rw [← List.append_assoc, h, List.append_nil]
  simp only [scanForVc, deriveKeys_true, process_fst]
  rw [hmarker.find_none hwire (by omega)]
  simp only
  rw [if_neg (by omega)]

variable (a b) in
def starvedRole (hmarker : FirstBehind
    (crypt next (cipherB (sharedSecret a.privateKey b.privateKey) a.infoHash) vc) b.padB) :
    Role (mseInitiate a) (keyFromB a b) (keyFromA a b) where
  at_ := Starved a b
  ends _ := False
  unsent := initiatorUnsent a b
  refuses := False
  listens := False
  extend _ hlistens _ := hlistens.elim
  feed := by
    rintro st tail rest segment hserves ⟨rfl, ⟨rfl, hrest⟩ | ⟨enc, scanBuf, rfl, hrest⟩⟩
    · have hlen : segment.length = (dhKeypair b.privateKey).2.length := by
        rw [length_dhKeypair]
        exact hserves
      have hsplit := List.append_inj hrest hlen
      have hne : segment ≠ [] := by
        rintro rfl
        rw [length_dhKeypair] at hlen
        cases hlen
      have hfeed : (mseInitiate a).feed .publicKey (dhKeypair b.privateKey).2 =
          ((a.cryptoBlock (sharedSecret a.privateKey b.privateKey)).1,
            .waits (.scanning (sharedSecret a.privateKey b.privateKey)
              (a.cryptoBlock (sharedSecret a.privateKey b.privateKey)).2 [])) := rfl
      rw [hsplit.1, hfeed]
      rw [hsplit.1] at hne
      exact .waits hne (List.append_nil _).symm ⟨rfl, Or.inr ⟨_, [], rfl, hsplit.2⟩⟩
    · have hne : segment ≠ [] := fun hnil => absurd (hserves.2 hnil) (by decide)
      have hmore : scanBuf ++ segment ++ rest = b.padB := by rw [List.append_assoc, hrest]
      have hfeed : (mseInitiate a).feed (.scanning (sharedSecret a.privateKey b.privateKey) enc scanBuf)
          segment = ([], .waits (.scanning (sharedSecret a.privateKey b.privateKey) enc
            (scanBuf ++ segment))) := by
        simp only [mseInitiate, scanForVc_starved hmarker hmore]
      rw [hfeed]
      exact .waits hne rfl ⟨rfl, Or.inr ⟨enc, _, rfl, hmore⟩⟩
  eof := fun _ => initiator_eof _

theorem receiver_start (hknown : Recognised b (offerOf a)) :
    SideAt (receiverRole a b hknown) 1176 (Link.start a).receiver [] []
      ((Link.start a).receiver.incoming ++ initiatorUnsent a b .publicKey) := by
  have hwire : (Link.start a).receiver.incoming ++ initiatorUnsent a b .publicKey =
      (offerOf a).wire (receiverSecret b (offerOf a)) [] := by
    rw [receiverSecret_eq, Offer.wire, initiatorUnsent, cryptoBlock_fst]
    simp [Link.start, InitiatorCall.publicValue, offerOf]
  rw [hwire]
  refine .handshake rfl (.publicKey rfl) ?_ rfl rfl rfl
  have hA : (offerOf a).padA.1.length ≤ 512 := a.padA.2
  have hC : (offerOf a).padC.1.length ≤ 512 := a.padC.2
  have hia : (offerOf a).ia.length = 0 := rfl
  rw [Offer.length_wire, Offer.length_text, hia]
  simp only [Link.start, List.length_nil]
  omega

theorem initiator_start {cryptoSelect : ℕ} (h4 : cryptoSelect < 256 ^ 4)
    (hsel : selectCrypto b.policy (cryptoProvide a.policy) = .ok cryptoSelect)
    (hmarker : FirstBehind (crypt next (initiatorDec a (answerOf b cryptoSelect h4)) vc) b.padB) :
    SideAt (initiatorRole a b h4 hsel hmarker) 1134 (Link.start a).initiator [] []
      ((Link.start a).initiator.incoming ++ receiverUnsent a b .publicKey) := by
  have hwire : (Link.start a).initiator.incoming ++ receiverUnsent a b .publicKey =
      (answerOf b cryptoSelect h4).wire (initiatorSecret a (answerOf b cryptoSelect h4))
        a.infoHash [] := by
    rw [receiverUnsent, response, hsel, Answer.wire, ← initiatorDec, initiatorDec_eq (b := b) rfl]
    simp [Link.start, answerOf]
  rw [hwire]
  refine .handshake rfl (.publicKey rfl) ?_ rfl rfl rfl
  have hB : (answerOf b cryptoSelect h4).padB.1.length ≤ 512 := b.padB.2
  have hD : (answerOf b cryptoSelect h4).padD.1.length ≤ 512 := b.padD.2
  rw [Answer.length_wire]
  simp only [Link.start, List.length_nil]
  omega

theorem starved_start (hmarker : FirstBehind
      (crypt next (cipherB (sharedSecret a.privateKey b.privateKey) a.infoHash) vc) b.padB)
    {e : Failure} (hsel : selectCrypto b.policy (cryptoProvide a.policy) = .error e) :
    SideAt (starvedRole a b hmarker) 1134 (Link.start a).initiator [] []
      ((Link.start a).initiator.incoming ++ receiverUnsent a b .publicKey) := by
  have hB := b.padB.2
  refine .handshake rfl ⟨rfl, Or.inl ⟨rfl, ?_⟩⟩ ?_ rfl rfl rfl
  · simp [receiverUnsent, response, hsel, Link.start]
  · simp only [receiverUnsent, response, hsel, Link.start, List.length_append, length_dhKeypair,
      List.length_nil]
    omega

end Roles

def Allows : EncryptionPolicy → ℕ → Prop
  | .forced, method => method = cryptoRc4
  | .disabled, method => method = cryptoPlaintext
  | .preferred, method => method = cryptoRc4 ∨ method = cryptoPlaintext

def Returned (s : Side σ) (n : Negotiated) (stream : MSEStream) : Prop :=
  ∃ call, s.point = .streaming n stream call

theorem Returned.stream_eq {s : Side σ} {n n' : Negotiated} {stream stream' : MSEStream}
    (h : Returned s n stream) (h' : Returned s n' stream') : stream = stream' := by
  obtain ⟨call, hp⟩ := h
  obtain ⟨call', hp'⟩ := h'
  cases hp.symm.trans hp'
  rfl

def ReturnsEncrypted (s : Side σ) : Prop := ∃ n stream, Returned s n stream ∧ n.result.encrypted = true

/-- The side is at its handshake and has what it waits for, fewer than `bound` times. -/
def GoesOn (M : Coroutine σ Negotiated Failure) (bound : ℕ) (s : Side σ) : Prop :=
  ∃ st, s.point = .handshake st ∧ (M.demand st).Ready s.incoming ∧
    (s.readCount < bound ∨ M.demand st = .drained)

def ReadsAll {σ τ : Type} (reader : Side σ) (stream : MSEStream) (writer : Side τ) : Prop :=
  ∃ unread, reader.got ++ unread = writer.wrote ∧ Delivers stream reader.incoming unread

structure Agreement (a : InitiatorCall) (b : ReceiverCall) (l : Link) : Prop where
  receiver : ReturnsEncrypted l.initiator → l.receiver.point = .aborted ∨
    ReturnsEncrypted l.receiver ∨ GoesOn (mseReceive b) 1176 l.receiver
  initiator : ReturnsEncrypted l.receiver → l.initiator.point = .aborted ∨
    ReturnsEncrypted l.initiator ∨ GoesOn (mseInitiate a) 1134 l.initiator
  infoHash : ∀ n stream, Returned l.receiver n stream → n.result.infoHash = some a.infoHash
  synchronised : ReturnsEncrypted l.initiator → ReturnsEncrypted l.receiver →
    (∀ n stream, Returned l.receiver n stream → ReadsAll l.receiver stream l.initiator) ∧
      ∀ n stream, Returned l.initiator n stream → ReadsAll l.initiator stream l.receiver
  noMethod : (∀ method, ¬ (Allows a.policy method ∧ Allows b.policy method)) →
    ∀ n stream, ¬ Returned l.initiator n stream ∧ ¬ Returned l.receiver n stream

theorem selectCrypto_error {pa pb : EncryptionPolicy}
    (h : ∀ method, ¬ (Allows pa method ∧ Allows pb method)) {cryptoSelect : ℕ} :
    selectCrypto pb (cryptoProvide pa) ≠ .ok cryptoSelect := by
  have hrc4 := h cryptoRc4
  have hplain := h cryptoPlaintext
  cases pa <;> cases pb <;> simp [Allows, selectCrypto, cryptoProvide, cryptoRc4, cryptoPlaintext]
    at hrc4 hplain ⊢

section Final

variable {a : InitiatorCall} {b : ReceiverCall} {keyA keyB : RC4}
  {A : Role (mseInitiate a) keyB keyA} {B : Role (mseReceive b) keyA keyB}
  {boundA boundB : ℕ} {l : Link} {sentA sentB unsentA unsentB : Bytes}

theorem Synced.readsAll {σ τ : Type} {reader : Side σ} {writer : Side τ} {readKey writeKey : RC4}
    {stream stream' : MSEStream} {call call' : Option Call} {sent tail rest : Bytes}
    (h : Synced readKey writeKey reader.wrote reader.got stream call sent tail reader.incoming)
    (hwriter : Synced writeKey readKey writer.wrote writer.got stream' call' tail sent rest) :
    ReadsAll reader stream writer := by
  obtain ⟨dec, buffer, rfl, -, hfollows, -⟩ := h
  obtain ⟨-, -, -, hsent, -, -⟩ := hwriter
  refine ⟨buffer ++ crypt next dec reader.incoming, ?_, delivers_iff.mpr rfl⟩
  rw [hsent] at hfollows
  rw [← List.append_assoc]
  exact hfollows.total

theorem Linked.synchronised (h : Linked A B boundA boundB l sentA sentB unsentA unsentB)
    {n n' : Negotiated} {stream stream' : MSEStream} (hA : Returned l.initiator n stream)
    (hB : Returned l.receiver n' stream') (hencA : n.result.encrypted = true)
    (hencB : n'.result.encrypted = true) :
    ReadsAll l.receiver stream' l.initiator ∧ ReadsAll l.initiator stream l.receiver := by
  obtain ⟨call, hpA⟩ := hA
  obtain ⟨call', hpB⟩ := hB
  have hunA := h.unsentA
  have hunB := h.unsentB
  rw [Unsent, hpA] at hunA
  rw [Unsent, hpB] at hunB
  simp only at hunA hunB
  subst hunA hunB
  have hinitiator := h.initiator
  have hreceiver := h.receiver
  rw [List.append_nil] at hinitiator hreceiver
  have hsyncA := (hinitiator.of_streaming hpA).2.2 hencA
  have hsyncB := (hreceiver.of_streaming hpB).2.2 hencB
  exact ⟨hsyncB.readsAll hsyncA, hsyncA.readsAll hsyncB⟩

/-- With a common method, both sides end alike. -/
theorem agreement_of_method (hknown : Recognised b (offerOf a)) {cryptoSelect : ℕ}
    (h4 : cryptoSelect < 256 ^ 4)
    (hsel : selectCrypto b.policy (cryptoProvide a.policy) = .ok cryptoSelect)
    (hmarker : FirstBehind (crypt next (initiatorDec a (answerOf b cryptoSelect h4)) vc) b.padB)
    (h : Linked (initiatorRole a b h4 hsel hmarker) (receiverRole a b hknown) 1134 1176 l
      sentA sentB unsentA unsentB) : Agreement a b l where
  receiver := by
    rintro ⟨n, stream, ⟨call, hp⟩, henc⟩
    obtain ⟨hends, hsuffix, -⟩ := h.initiator.of_streaming hp
    cases h.receiver with
    | @handshake st hst hat _ _ _ hsent =>
      -- the initiator has read all of the response, so the receiver only waits for it to be sent
      rw [hsent] at hsuffix
      have hnil := (List.append_eq_nil_iff.mp (List.suffix_nil.mp hsuffix)).2
      have hun := h.unsentB
      rw [Unsent, hst] at hun
      simp only at hun
      rw [hun] at hnil
      cases st with
      | responding n =>
        exact Or.inr (Or.inr ⟨_, hst, ready_drained _, Or.inr rfl⟩)
      | publicKey =>
        have hlen := congrArg List.length hnil
        simp [receiverRole, receiverUnsent] at hlen
      | _ =>
        have hlen := congrArg List.length hnil
        simp [receiverRole, receiverUnsent, response, hsel] at hlen
    | @streaming n' stream' call' hst hends' _ _ =>
      refine Or.inr (Or.inl ⟨n', stream', ⟨call', hst⟩, hends'.2.1.mpr ?_⟩)
      rw [← Except.ok.inj (hsel.symm.trans hends'.1)]
      exact hends.2.mp henc
    | gone hgone _ =>
      rcases h.gone (Or.inr hgone) with habort | habort | hno | ⟨e, he⟩
      · cases hp.symm.trans habort
      · exact Or.inl habort
      · exact hno.elim
      · cases hsel.symm.trans he
  initiator := by
    rintro ⟨n, stream, ⟨call, hp⟩, henc⟩
    obtain ⟨hends, -, -⟩ := h.receiver.of_streaming hp
    cases h.initiator with
    | @handshake st hst hat hcount _ _ _ =>
      have hun := h.unsentB
      rw [Unsent, hp] at hun
      simp only at hun
      rw [hun, List.append_nil] at hat hcount
      have hready := InitiatorAt.ready hat
      exact Or.inr (Or.inr ⟨st, hst, hready.1, Or.inl (by omega)⟩)
    | @streaming n' stream' call' hst hends' _ _ =>
      refine Or.inr (Or.inl ⟨n', stream', ⟨call', hst⟩, hends'.2.mpr ?_⟩)
      rw [Except.ok.inj (hsel.symm.trans hends.1)]
      exact hends.2.1.mp henc
    | gone hgone _ =>
      rcases h.gone (Or.inl hgone) with habort | habort | hno | ⟨e, he⟩
      · exact Or.inl habort
      · cases hp.symm.trans habort
      · exact hno.elim
      · cases hsel.symm.trans he
  infoHash := by
    rintro n stream ⟨call, hp⟩
    exact (h.receiver.of_streaming hp).1.2.2
  synchronised := by
    rintro ⟨n, stream, hA, hencA⟩ ⟨n', stream', hB, hencB⟩
    have hboth := h.synchronised hA hB hencA hencB
    constructor
    · intro _ _ h1
      rw [h1.stream_eq hB]
      exact hboth.1
    · intro _ _ h1
      rw [h1.stream_eq hA]
      exact hboth.2
  noMethod hno := absurd hsel (selectCrypto_error hno)

theorem agreement_of_no_method (hknown : Recognised b (offerOf a)) {e : Failure}
    (hsel : selectCrypto b.policy (cryptoProvide a.policy) = .error e)
    (hmarker : FirstBehind
      (crypt next (cipherB (sharedSecret a.privateKey b.privateKey) a.infoHash) vc) b.padB)
    (h : Linked (starvedRole a b hmarker) (receiverRole a b hknown) 1134 1176 l
      sentA sentB unsentA unsentB) : Agreement a b l := by
  have hA : ∀ n stream, ¬ Returned l.initiator n stream := by
    rintro n stream ⟨call, hp⟩
    exact (h.initiator.of_streaming hp).1
  have hB : ∀ n stream, ¬ Returned l.receiver n stream := by
    rintro n stream ⟨call, hp⟩
    cases hsel.symm.trans (h.receiver.of_streaming hp).1.1
  constructor
  · rintro ⟨n, stream, hreturned, -⟩
    exact absurd hreturned (hA n stream)
  · rintro ⟨n, stream, hreturned, -⟩
    exact absurd hreturned (hB n stream)
  · intro n stream hreturned
    exact absurd hreturned (hB n stream)
  · rintro ⟨n, stream, hreturned, -⟩
    exact absurd hreturned (hA n stream)
  · intro _ n stream
    exact ⟨hA n stream, hB n stream⟩

/-- In every run of an initiator and a receiver that knows its info hash, however the streams are
cut: if one side returns an encrypted stream, so does the other unless it aborts, for the same info
hash, and each reads all that the other writes; without a common method neither returns. -/
theorem rc4_agreement {acts : List (Party × Act)} (hknown : Recognised b (offerOf a))
    (hmarker : FirstBehind
      (crypt next (cipherB (sharedSecret a.privateKey b.privateKey) a.infoHash) vc) b.padB)
    (hrun : (Link.start a).run a b acts = some l) : Agreement a b l := by
  cases hsel : selectCrypto b.policy (cryptoProvide a.policy) with
  | ok cryptoSelect =>
    have h4 : cryptoSelect < 256 ^ 4 := by
      rcases selected_suits hsel with ⟨rfl, -⟩ | ⟨rfl, -⟩ <;> decide
    have hstart : Linked (initiatorRole a b h4 hsel hmarker) (receiverRole a b hknown) 1134 1176
        (Link.start a) [] [] (initiatorUnsent a b .publicKey) (receiverUnsent a b .publicKey) :=
      ⟨initiator_start h4 hsel hmarker, receiver_start hknown, rfl, rfl,
        ⟨fun _ => trivial, fun _ => trivial⟩, fun h => h.elim False.elim False.elim⟩
    obtain ⟨_, _, _, _, h⟩ := hstart.run hrun
    exact agreement_of_method hknown h4 hsel hmarker h
  | error e =>
    have hstart : Linked (starvedRole a b hmarker) (receiverRole a b hknown) 1134 1176
        (Link.start a) [] [] (initiatorUnsent a b .publicKey) (receiverUnsent a b .publicKey) := by
      refine ⟨starved_start hmarker hsel, receiver_start hknown, rfl, rfl,
        ⟨?_, fun _ => trivial⟩, fun h => h.elim False.elim False.elim⟩
      rintro ⟨n, hends⟩
      cases hsel.symm.trans hends.1
    obtain ⟨_, _, _, _, h⟩ := hstart.run hrun
    exact agreement_of_no_method hknown hsel hmarker h

end Final

theorem step_handshake {s : Side σ} {st : σ} {k : ℕ} (hp : s.point = .handshake st)
    (hserves : (M.demand st).Serves (s.incoming.take k)) :
    s.step M (.receives k) = some ((M.feed st (s.incoming.take k)).1, { s with
      point := .ofOutcome (M.feed st (s.incoming.take k)).2
      incoming := s.incoming.drop k
      readCount := s.readCount + 1 }) := by
  simp only [Side.step, hp, if_pos hserves]

theorem run_initiator_receives {a : InitiatorCall} {b : ReceiverCall} {l : Link} {k n : ℕ}
    {acts : List (Party × Act)} {out : Bytes} {s s' : Side Initiating} {p : Point Receiving}
    (hstep : s.step (mseInitiate a) (.receives k) = some (out, s'))
    (hrun : Link.run a b ⟨s', ⟨p, out, n, [], []⟩⟩ acts = some l) :
    Link.run a b ⟨s, ⟨p, [], n, [], []⟩⟩ ((.initiator, .receives k) :: acts) = some l := by
  simp only [Link.run, Link.step, hstep]
  exact hrun

theorem run_receiver_receives {a : InitiatorCall} {b : ReceiverCall} {l : Link} {k n : ℕ}
    {acts : List (Party × Act)} {out : Bytes} {s s' : Side Receiving} {p : Point Initiating}
    (hstep : s.step (mseReceive b) (.receives k) = some (out, s'))
    (hrun : Link.run a b ⟨⟨p, out, n, [], []⟩, s'⟩ acts = some l) :
    Link.run a b ⟨⟨p, [], n, [], []⟩, s⟩ ((.receiver, .receives k) :: acts) = some l := by
  simp only [Link.run, Link.step, hstep]
  exact hrun

/-- All of the crypto block is to come, behind an empty pad. -/
theorem receiverAt_block {a : InitiatorCall} {b : ReceiverCall} (hpad : a.padA.1 = []) :
    ReceiverAt b (offerOf a) []
      (.waits (.scanning (sharedSecret a.privateKey b.privateKey) [] none))
      ((a.cryptoBlock (sharedSecret a.privateKey b.privateKey)).1 ++ []) := by
  have hpad' : (offerOf a).padA.1 = [] := hpad
  have hhash : (offerOf a).infoHash = a.infoHash := rfl
  rw [← receiverSecret_eq]
  apply ReceiverAt.scanning (Or.inl ⟨rfl, by simp⟩)
  rw [cryptoBlock_fst, receiverDec, hpad', hhash, List.nil_append, List.nil_append, List.append_nil,
    List.append_nil]

theorem initiatorAt_response {a : InitiatorCall} {r : Answer} (hpad : r.padB.1 = []) :
    InitiatorAt a r [] (.waits (.scanning (initiatorSecret a r)
      (a.cryptoBlock (initiatorSecret a r)).2 []))
      (crypt next (initiatorDec a r) (responseText r.cryptoSelect r.padD) ++ []) := by
  rw [cryptoBlock_snd]
  apply InitiatorAt.scanning (by simp)
  rw [hpad]

theorem someCall_recognised : Recognised someReceiver (offerOf someCall) where
  marker := firstBehind_nil _
  known := List.mem_singleton_self someHash
  distinct := fun _ hmem _ => List.mem_singleton.mp hmem

theorem someCall_method : selectCrypto .preferred (cryptoProvide .preferred) = .ok cryptoRc4 := rfl

/-- Both public values, the crypto block, the response and the end of its `drain`. -/
def handshakeActs : List (Party × Act) :=
  [(.receiver, .receives 96), (.initiator, .receives 96), (.receiver, .receives 1024),
    (.initiator, .receives 1024), (.receiver, .receives 0)]

def someSecret : Bytes := sharedSecret someKey someKey

theorem someCall_block : (someCall.cryptoBlock someSecret).1.length = 56 := by
  have hreq1 : (req1Hash someSecret).length = 20 := Sha1.length_sha1 _
  have hhash : (obfuscatedHash someCall.infoHash someSecret).length = 20 := by
    simp [obfuscatedHash]
  rw [cryptoBlock_fst, List.length_append, List.length_append, length_crypt, Offer.length_text, hreq1,
    hhash]
  rfl

theorem receives_publicValue :
    (Link.start someCall).receiver.step (mseReceive someReceiver) (.receives 96) =
      some ((dhKeypair someKey).2, ⟨.handshake (.scanning someSecret [] none), [], 1, [], []⟩) := by
  have hincoming : (Link.start someCall).receiver.incoming = (dhKeypair someKey).2 :=
    List.append_nil _
  have htake : (Link.start someCall).receiver.incoming.take 96 = (dhKeypair someKey).2 := by
    rw [hincoming]
    exact List.take_of_length_le (length_dhKeypair someKey).le
  have hdrop : (Link.start someCall).receiver.incoming.drop 96 = [] := by
    rw [hincoming]
    exact List.drop_of_length_le (length_dhKeypair someKey).le
  have hserves : ((mseReceive someReceiver).demand .publicKey).Serves
      ((Link.start someCall).receiver.incoming.take 96) := by
    rw [htake]
    exact length_dhKeypair someKey
  have hfeed : (mseReceive someReceiver).feed .publicKey (dhKeypair someKey).2 =
      ((dhKeypair someKey).2 ++ [], .waits (.scanning someSecret [] none)) := rfl
  rw [step_handshake rfl hserves, htake, hdrop, hfeed, List.append_nil]
  rfl

theorem receives_answer :
    Side.step (mseInitiate someCall) ⟨.handshake .publicKey, (dhKeypair someKey).2, 0, [], []⟩
      (.receives 96) = some ((someCall.cryptoBlock someSecret).1,
        ⟨.handshake (.scanning someSecret (someCall.cryptoBlock someSecret).2 []), [], 1, [], []⟩) := by
  have htake : (dhKeypair someKey).2.take 96 = (dhKeypair someKey).2 :=
    List.take_of_length_le (length_dhKeypair someKey).le
  have hdrop : (dhKeypair someKey).2.drop 96 = [] :=
    List.drop_of_length_le (length_dhKeypair someKey).le
  have hserves : ((mseInitiate someCall).demand .publicKey).Serves ((dhKeypair someKey).2.take 96) := by
    rw [htake]
    exact length_dhKeypair someKey
  have hfeed : (mseInitiate someCall).feed .publicKey (dhKeypair someKey).2 =
      ((someCall.cryptoBlock someSecret).1,
        .waits (.scanning someSecret (someCall.cryptoBlock someSecret).2 [])) := rfl
  rw [step_handshake rfl hserves]
  simp only [htake, hdrop, hfeed]
  rfl

theorem receives_block : ∃ n, n.result.encrypted = true ∧
    Side.step (mseReceive someReceiver)
      ⟨.handshake (.scanning someSecret [] none), (someCall.cryptoBlock someSecret).1, 1, [], []⟩
      (.receives 1024) = some (response someCall someReceiver,
        ⟨.handshake (.responding n), [], 2, [], []⟩) := by
  have hat : ReceiverAt someReceiver (offerOf someCall) [] (.waits (.scanning someSecret [] none))
      ((someCall.cryptoBlock someSecret).1 ++ []) :=
    receiverAt_block rfl
  have hstart : Receiving.scanning someSecret [] none ≠ .publicKey := nofun
  have hbusy : ¬ Responding (.scanning someSecret [] none) := fun ⟨_, h⟩ => nomatch h
  have hstep := hat.feed_offer someCall_recognised hstart hbusy
  have hlen := someCall_block
  have htake : (someCall.cryptoBlock someSecret).1.take 1024 = (someCall.cryptoBlock someSecret).1 :=
    List.take_of_length_le (by omega)
  have hdrop : (someCall.cryptoBlock someSecret).1.drop 1024 = [] :=
    List.drop_of_length_le (by omega)
  have hserves : ((mseReceive someReceiver).demand (.scanning someSecret [] none)).Serves
      ((someCall.cryptoBlock someSecret).1.take 1024) := by
    rw [htake]
    exact serves_upTo (by omega) (by omega)
  rw [step_handshake rfl hserves]
  simp only [htake, hdrop]
  generalize (mseReceive someReceiver).feed (.scanning someSecret [] none)
    (someCall.cryptoBlock someSecret).1 = step at hstep ⊢
  cases hstep with
  | reads hwaits hidle _ =>
    rcases hwaits.ready.2 with hlt | hresponding
    · exact absurd hlt (Nat.lt_irrefl _)
    · exact absurd hresponding hidle
  | done hrest =>
    have hsel : selectCrypto someReceiver.policy (offerOf someCall).cryptoProvide = .ok cryptoRc4 :=
      someCall_method
    rw [receiverDone_ok hsel]
    exact ⟨_, rfl, rfl⟩

theorem receives_response : ∃ n, n.result.encrypted = true ∧
    Side.step (mseInitiate someCall)
      ⟨.handshake (.scanning someSecret (someCall.cryptoBlock someSecret).2 []),
        response someCall someReceiver, 1, [], []⟩ (.receives 1024) =
      some ([], ⟨.streaming n n.result.stream none, [], 2, [], []⟩) := by
  have hrc4 : cryptoRc4 < 256 ^ 4 := by decide
  have hsecret : initiatorSecret someCall (answerOf someReceiver cryptoRc4 hrc4) = someSecret := rfl
  have hresponse : response someCall someReceiver =
      crypt next (initiatorDec someCall (answerOf someReceiver cryptoRc4 hrc4))
        (responseText cryptoRc4 []) := by
    rw [initiatorDec_eq (b := someReceiver) rfl, response]
    rfl
  have hlen : (response someCall someReceiver).length = 14 := by
    rw [hresponse, length_crypt, length_responseText]
    rfl
  have hat : InitiatorAt someCall (answerOf someReceiver cryptoRc4 hrc4) []
      (.waits (.scanning someSecret (someCall.cryptoBlock someSecret).2 []))
      (response someCall someReceiver ++ []) := by
    rw [hresponse, ← hsecret]
    exact initiatorAt_response rfl
  have hserves : ((mseInitiate someCall).demand
      (.scanning someSecret (someCall.cryptoBlock someSecret).2 [])).Serves
      (response someCall someReceiver) := serves_upTo (by omega) (by omega)
  have hnext := hat.feed (firstBehind_nil _) hserves
  have htake : (response someCall someReceiver).take 1024 = response someCall someReceiver :=
    List.take_of_length_le (by omega)
  have hdrop : (response someCall someReceiver).drop 1024 = [] :=
    List.drop_of_length_le (by omega)
  have hstart : Initiating.scanning someSecret (someCall.cryptoBlock someSecret).2 [] ≠ .publicKey :=
    nofun
  have hfst := initiator_feed_fst (a := someCall) (response someCall someReceiver) hstart
  rw [← htake] at hserves
  rw [step_handshake rfl hserves]
  simp only [htake, hdrop, hfst]
  generalize ((mseInitiate someCall).feed (.scanning someSecret (someCall.cryptoBlock someSecret).2 [])
    (response someCall someReceiver)).2 = o at hnext ⊢
  have hsel : selectCrypto someReceiver.policy (cryptoProvide someCall.policy) = .ok cryptoRc4 :=
    someCall_method
  cases o with
  | waits st => exact absurd hnext.ready.2 (Nat.lt_irrefl _)
  | returns n =>
    cases hnext with
    | done hrest ho =>
      obtain ⟨n', hn', hends, -⟩ := initiator_done hrc4 hsel hrest
      obtain rfl := Outcome.returns.inj (ho.trans hn')
      exact ⟨n, hends.2.mpr rfl, rfl⟩
  | raises e =>
    cases hnext with
    | done hrest ho =>
      obtain ⟨n', hn', -⟩ := initiator_done hrc4 hsel hrest
      cases ho.trans hn'

/-- Both sides return encrypted streams, and agree. -/
theorem rc4_agreement_delivery :
    ∃ l, (Link.start someCall).run someCall someReceiver handshakeActs = some l ∧
      ReturnsEncrypted l.initiator ∧ ReturnsEncrypted l.receiver ∧
      Agreement someCall someReceiver l := by
  obtain ⟨n, henc, hblock⟩ := receives_block
  obtain ⟨n', henc', hresponse⟩ := receives_response
  have hserves : ((mseReceive someReceiver).demand (.responding n)).Serves (List.take 0 []) := rfl
  have hdrain : Side.step (mseReceive someReceiver) ⟨.handshake (.responding n), [], 2, [], []⟩
      (.receives 0) = some ([], ⟨.streaming n n.result.stream none, [], 3, [], []⟩) := by
    rw [step_handshake rfl hserves]
    rfl
  have hrun : ∃ l, (Link.start someCall).run someCall someReceiver handshakeActs = some l ∧
      ReturnsEncrypted l.initiator ∧ ReturnsEncrypted l.receiver := by
    refine ⟨_, run_receiver_receives receives_publicValue (run_initiator_receives receives_answer
      (run_receiver_receives hblock (run_initiator_receives hresponse
        (run_receiver_receives hdrain rfl)))), ?_, ?_⟩
    · exact ⟨n', _, ⟨none, rfl⟩, henc'⟩
    · exact ⟨n, _, ⟨none, rfl⟩, henc⟩
  obtain ⟨l, hrun, hA, hB⟩ := hrun
  exact ⟨l, hrun, hA, hB, rc4_agreement someCall_recognised (firstBehind_nil _) hrun⟩

end MseAgreement
