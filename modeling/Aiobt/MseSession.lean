import Aiobt.MseHandshake

/-! # Two parties on one connection

`mse_initiate` on one side and `mse_receive` on the other, and then whatever both write to the
returned streams and read from them. What a side writes is on its way until the other reads it, in
pieces of any size. -/
namespace MseSession

open ByteStrings SegmentedReads MseStreams MseHandshake

variable {σ : Type}

inductive Point (σ : Type) where
  | handshake (st : σ)
  /-- The handshake has returned; a call on its stream may be waiting. -/
  | streaming (negotiated : Negotiated) (stream : MSEStream) (call : Option Call)
  | failed (e : Failure)
  | aborted

/-- `incoming` is on its way. The other fields record the reads of the handshake and what was
written to the stream and read from it. -/
structure Side (σ : Type) where
  point : Point σ
  incoming : Bytes
  readCount : ℕ
  wrote : Bytes
  got : Bytes

inductive Act where
  /-- The await gets the next `k` bytes. -/
  | receives (k : ℕ)
  | eof
  | aborts
  | writes (data : Bytes)
  | calls (call : Call)
  deriving DecidableEq, Repr

def Point.ofOutcome : Outcome σ Negotiated Failure → Point σ
  | .waits st => .handshake st
  | .returns n => .streaming n n.result.stream none
  | .raises e => .failed e

/-- What comes of a call; calls do not raise while the connection is open. -/
def Side.goOn (s : Side σ) (n : Negotiated) : ReadOutcome → Option (Side σ)
  | .waits r => some { s with point := .streaming n r.stream (some r.call) }
  | .returns (out, stream) =>
    some { s with point := .streaming n stream none, got := s.got ++ out }
  | .raises _ => none

def Side.step (M : Coroutine σ Negotiated Failure) (s : Side σ) : Act → Option (Bytes × Side σ)
  | .receives k =>
    match s.point with
    | .handshake st =>
      if (M.demand st).Serves (s.incoming.take k) then
        let step := M.feed st (s.incoming.take k)
        some (step.1, { s with
          point := .ofOutcome step.2, incoming := s.incoming.drop k, readCount := s.readCount + 1 })
      else none
    | .streaming n stream (some call) =>
      if (reads.demand ⟨stream, call⟩).Serves (s.incoming.take k) then
        let step := reads.feed ⟨stream, call⟩ (s.incoming.take k)
        (Side.goOn { s with incoming := s.incoming.drop k } n step.2).map fun s' => ([], s')
      else none
    | _ => none
  | .eof =>
    match s.point with
    | .handshake st =>
      if M.demand st = .drained then none
      else some ([], { s with point := .ofOutcome (M.eof st) })
    | _ => none
  | .aborts =>
    match s.point with
    | .handshake _ => some ([], { s with point := .aborted })
    | _ => none
  | .writes data =>
    match s.point with
    | .streaming n stream call =>
      some ((stream.write data).1, { s with
        point := .streaming n (stream.write data).2 call, wrote := s.wrote ++ data })
    | _ => none
  | .calls call =>
    match s.point with
    | .streaming n stream none => (s.goOn n (startRead stream call)).map fun s' => ([], s')
    | _ => none

def Side.hear (s : Side σ) (b : Bytes) : Side σ := { s with incoming := s.incoming ++ b }

def Side.Gone (s : Side σ) : Prop :=
  match s.point with
  | .failed _ => True
  | .aborted => True
  | _ => False

instance (s : Side σ) : Decidable s.Gone := by
  unfold Side.Gone
  split <;> infer_instance

structure Link where
  initiator : Side Initiating
  receiver : Side Receiving

inductive Party where
  | initiator
  | receiver
  deriving DecidableEq, Repr

variable (a : InitiatorCall) (b : ReceiverCall)

def Link.start : Link where
  initiator := ⟨.handshake .publicKey, [], 0, [], []⟩
  receiver := ⟨.handshake .publicKey, a.publicValue, 0, [], []⟩

/-- The end of a stream is seen when its writer is gone and all is read. -/
def Link.step (l : Link) : Party × Act → Option Link
  | (.initiator, act) =>
    if act = .eof ∧ ¬ (l.receiver.Gone ∧ l.initiator.incoming = []) then none
    else (l.initiator.step (mseInitiate a) act).map fun r => ⟨r.2, l.receiver.hear r.1⟩
  | (.receiver, act) =>
    if act = .eof ∧ ¬ (l.initiator.Gone ∧ l.receiver.incoming = []) then none
    else (l.receiver.step (mseReceive b) act).map fun r => ⟨l.initiator.hear r.1, r.2⟩

def Link.run : Link → List (Party × Act) → Option Link
  | l, [] => some l
  | l, act :: rest => (l.step a b act).bind fun l' => Link.run l' rest

theorem run_invariant {I : Link → Prop} (hstep : ∀ l act l', I l → l.step a b act = some l' → I l')
    {acts : List (Party × Act)} {l l' : Link} (h : I l) (hrun : l.run a b acts = some l') : I l' := by
  induction acts generalizing l with
  | nil =>
    obtain rfl := Option.some.inj hrun
    exact h
  | cons act rest ih =>
    obtain ⟨l₁, hone, hrest⟩ := Option.bind_eq_some_iff.mp hrun
    exact ih (hstep l act l₁ h hone) hrest

end MseSession
