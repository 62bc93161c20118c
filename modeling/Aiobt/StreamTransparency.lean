import Aiobt.MseStreams

/-! # Transparent streams

Both ends of an `EncryptedStream` of `mse.py`, over a transport that may end anywhere. The sizes that
the calls are given are Python integers. -/
namespace StreamTransparency

open ByteStrings StreamCiphers Rc4 SegmentedReads MseStreams

structure EncryptedStream where
  enc : RC4
  dec : RC4
  buffer : Bytes

def EncryptedStream.write (s : EncryptedStream) (data : Bytes) : Bytes × EncryptedStream :=
  ((s.enc.process data).1, { s with enc := (s.enc.process data).2 })

def EncryptedStream.writeAll : EncryptedStream → List Bytes → Bytes × EncryptedStream
  | s, [] => ([], s)
  | s, data :: more =>
    ((s.write data).1 ++ ((s.write data).2.writeAll more).1, ((s.write data).2.writeAll more).2)

inductive StreamCall where
  | readexactly (n : ℤ)
  | read (n : ℤ)
  deriving DecidableEq, Repr

inductive Answer where
  | returned (out : Bytes)
  | incompleteRead (got : Bytes) (expected : ℤ)
  deriving DecidableEq, Repr

def Answer.bytes : Answer → Bytes
  | .returned out => out
  | .incompleteRead _ _ => []

def EncryptedStream.takeBuffer (s : EncryptedStream) (n : ℤ) : Option Answer × EncryptedStream :=
  (some (.returned (s.buffer.take (sliceBound s.buffer.length n))),
    { s with buffer := s.buffer.drop (sliceBound s.buffer.length n) })

/-- A call up to its first await; no answer where it waits for the transport. -/
def EncryptedStream.start (s : EncryptedStream) : StreamCall → Option Answer × EncryptedStream
  | .readexactly n => if s.buffer.length < n then (none, s) else s.takeBuffer n
  | .read n => if s.buffer ≠ [] then s.takeBuffer n else (none, s)

/-- How many bytes a call that waits asks the transport for. -/
def EncryptedStream.asked (s : EncryptedStream) : StreamCall → ℤ
  | .readexactly n => max (n - s.buffer.length) 4096
  | .read n => n

def EncryptedStream.resume (s : EncryptedStream) (raw : Bytes) :
    StreamCall → Option Answer × EncryptedStream
  | .readexactly n =>
    if raw = [] then (some (.incompleteRead s.buffer n), s)
    else EncryptedStream.start { s with
      dec := (s.dec.process raw).2, buffer := s.buffer ++ (s.dec.process raw).1 } (.readexactly n)
  | .read _ =>
    if raw = [] then (some (.returned []), s)
    else (some (.returned (s.dec.process raw).1), { s with dec := (s.dec.process raw).2 })

/-- What `StreamReader.read(n)` may give of the bytes that come before the end of the transport. A
negative `n` asks for all of them. -/
structure Serves (n : ℤ) (rest raw : Bytes) : Prop where
  front : raw <+: rest
  bound : 0 ≤ n → raw.length ≤ n
  atEnd : raw = [] → n = 0 ∨ rest = []
  all : n < 0 → raw = rest

instance (n : ℤ) (rest raw : Bytes) : Decidable (Serves n rest raw) :=
  decidable_of_iff (raw <+: rest ∧ (0 ≤ n → raw.length ≤ n) ∧ (raw = [] → n = 0 ∨ rest = []) ∧
      (n < 0 → raw = rest))
    ⟨fun ⟨hfront, hbound, hend, hall⟩ => ⟨hfront, hbound, hend, hall⟩,
      fun h => ⟨h.front, h.bound, h.atEnd, h.all⟩⟩

/-- The reading end: the call that waits, the answers so far, and what the transport has yet to
bring. -/
structure Reader where
  stream : EncryptedStream
  call : Option StreamCall
  answers : List Answer
  rest : Bytes

def Reader.start (stream : EncryptedStream) (delivered : Bytes) : Reader :=
  ⟨stream, none, [], delivered⟩

def Reader.returned (r : Reader) : Bytes := (r.answers.map Answer.bytes).flatten

inductive Act where
  | calls (call : StreamCall)
  | receives (raw : Bytes)

def Reader.settle (r : Reader) (call : StreamCall) (rest : Bytes) :
    Option Answer × EncryptedStream → Reader
  | (none, stream) => { r with stream := stream, call := some call, rest := rest }
  | (some answer, stream) => ⟨stream, none, r.answers ++ [answer], rest⟩

def Reader.step (r : Reader) : Act → Option Reader
  | .calls call =>
    match r.call with
    | none => some (r.settle call r.rest (r.stream.start call))
    | some _ => none
  | .receives raw =>
    match r.call with
    | none => none
    | some call =>
      if Serves (r.stream.asked call) r.rest raw then
        some (r.settle call (r.rest.drop raw.length) (r.stream.resume raw call))
      else none

def Reader.run (r : Reader) : List Act → Option Reader
  | [] => some r
  | act :: acts => (r.step act).bind fun r' => r'.run acts

theorem step_cases {r r' : Reader} {act : Act} (h : r.step act = some r') :
    (∃ call, r.call = none ∧ r' = r.settle call r.rest (r.stream.start call)) ∨
      ∃ call raw, r.call = some call ∧ Serves (r.stream.asked call) r.rest raw ∧
        r' = r.settle call (r.rest.drop raw.length) (r.stream.resume raw call) := by
  obtain ⟨stream, waiting, answers, rest⟩ := r
  cases act with
  | calls call =>
    cases waiting with
    | none => exact Or.inl ⟨call, rfl, (Option.some.inj h).symm⟩
    | some _ => cases h
  | receives raw =>
    cases waiting with
    | none => cases h
    | some call =>
      simp only [Reader.step] at h
      by_cases hserves : Serves (stream.asked call) rest raw
      · rw [if_pos hserves] at h
        exact Or.inr ⟨call, raw, rfl, hserves, (Option.some.inj h).symm⟩
      · rw [if_neg hserves] at h
        cases h

theorem run_keeps {P : Reader → Prop}
    (hstep : ∀ r act r', P r → r.step act = some r' → P r') {acts : List Act} {r r' : Reader}
    (h : P r) (hrun : r.run acts = some r') : P r' := by
  induction acts generalizing r with
  | nil =>
    obtain rfl := Option.some.inj hrun
    exact h
  | cons act acts ih =>
    obtain ⟨next, hnext, hrest⟩ := Option.bind_eq_some_iff.mp hrun
    exact ih (hstep r act next h hnext) hrest

/-- With sizes that are not negative the calls are those of the streams that a handshake returns. -/
def EncryptedStream.toMse (s : EncryptedStream) : MSEStream := .encrypted s.enc s.dec s.buffer

def toStreamCall : Call → StreamCall
  | .readexactly n => .readexactly n
  | .read n => .read n

def toOutcome (call : Call) : Option Answer × EncryptedStream → ReadOutcome
  | (none, s) => .waits ⟨s.toMse, call⟩
  | (some (.returned out), s) => .returns (out, s.toMse)
  | (some (.incompleteRead _ _), _) => .raises .incompleteRead

theorem takeBuffer_toOutcome (s : EncryptedStream) (call : Call) (n : ℕ) :
    toOutcome call (s.takeBuffer n) =
      .returns (s.buffer.take n, .encrypted s.enc s.dec (s.buffer.drop n)) := by
  have hbound : sliceBound s.buffer.length n = min n s.buffer.length := by
    rw [sliceBound, if_neg (by omega)]
    omega
  simp only [EncryptedStream.takeBuffer, toOutcome, EncryptedStream.toMse, hbound]
  rw [← List.take_eq_take_min]
  by_cases hn : n ≤ s.buffer.length
  · rw [Nat.min_eq_left hn]
  · rw [Nat.min_eq_right (by omega), List.drop_length, List.drop_eq_nil_of_le (by omega)]

theorem startRead_toMse (s : EncryptedStream) (call : Call) :
    startRead s.toMse call = toOutcome call (s.start (toStreamCall call)) := by
  cases call with
  | readexactly n =>
    by_cases hlen : s.buffer.length < n
    · simp [toStreamCall, EncryptedStream.start, EncryptedStream.toMse, startRead,
        readexactlyLoop, toOutcome, hlen]
    · have hlen' : ¬ (s.buffer.length : ℤ) < n := by omega
      simp only [toStreamCall, EncryptedStream.start, hlen', if_false, takeBuffer_toOutcome]
      simp [EncryptedStream.toMse, startRead, readexactlyLoop, hlen]
  | read n =>
    by_cases hbuffer : s.buffer = []
    · simp [toStreamCall, EncryptedStream.start, EncryptedStream.toMse, startRead, toOutcome,
        hbuffer]
    · simp only [toStreamCall, EncryptedStream.start, ne_eq, hbuffer, not_false_eq_true, if_true,
        takeBuffer_toOutcome]
      simp [EncryptedStream.toMse, startRead, hbuffer]

theorem feed_toMse (s : EncryptedStream) (call : Call) {raw : Bytes} (hraw : raw ≠ []) :
    (reads.feed ⟨s.toMse, call⟩ raw).2 = toOutcome call (s.resume raw (toStreamCall call)) := by
  cases call with
  | readexactly n =>
    simp only [toStreamCall, EncryptedStream.resume, if_neg hraw]
    exact startRead_toMse ⟨s.enc, (s.dec.process raw).2, s.buffer ++ (s.dec.process raw).1⟩
      (.readexactly n)
  | read n =>
    simp only [toStreamCall, EncryptedStream.resume, if_neg hraw]
    rfl

theorem eof_toMse (s : EncryptedStream) (call : Call) :
    reads.eof ⟨s.toMse, call⟩ = toOutcome call (s.resume [] (toStreamCall call)) := by
  cases call with
  | readexactly n => rfl
  | read n => rfl

theorem process_append (c : RC4) (a b : Bytes) :
    (c.process (a ++ b)).1 = (c.process a).1 ++ ((c.process a).2.process b).1 ∧
      (c.process (a ++ b)).2 = ((c.process a).2.process b).2 := by
  constructor
  · simp only [process_fst, process_snd, crypt_append]
  · simp only [process_snd, List.length_append, skip_add]

theorem writeAll_wire (s : EncryptedStream) (datas : List Bytes) :
    (s.writeAll datas).1 = crypt next s.enc datas.flatten := by
  induction datas generalizing s with
  | nil => rfl
  | cons data more ih =>
    rw [EncryptedStream.writeAll, List.flatten_cons, crypt_append, ih]
    simp only [EncryptedStream.write, process_fst, process_snd]

/-- The bytes that calls gave and the buffer are what came over the wire, which was `sent` under
`s₀` and ends `lost` bytes early. -/
structure InStep (s₀ : RC4) (sent lost : Bytes) (r : Reader) : Prop where
  follows : Follows next s₀ sent r.stream.dec (r.returned ++ r.stream.buffer) (r.rest ++ lost)
  clean : ∀ n, r.call = some (.read n) → r.stream.buffer = []
  ended : ∀ got n, r.answers.getLast? = some (.incompleteRead got n) →
    r.stream.buffer = got ∧ r.rest = []

/-- What a call up to its first await does to the stream and to the answers. -/
structure Settles (s : EncryptedStream) (call : StreamCall)
    (res : Option Answer × EncryptedStream) : Prop where
  dec : res.2.dec = s.dec
  split : s.buffer = (res.1.map Answer.bytes).getD [] ++ res.2.buffer
  clean : res.1 = none → ∀ n, call = .read n → res.2.buffer = []
  waits : res.1 = none → res.2 = s
  returns : ∀ got n, res.1 ≠ some (.incompleteRead got n)

theorem takeBuffer_settles (s : EncryptedStream) (call : StreamCall) (n : ℤ) :
    Settles s call (s.takeBuffer n) := by
  constructor
  · rfl
  · exact (List.take_append_drop _ _).symm
  · intro hnone
    cases hnone
  · intro hnone
    cases hnone
  · intro got k hsome
    cases hsome

theorem start_settles (s : EncryptedStream) (call : StreamCall) :
    Settles s call (s.start call) := by
  cases call with
  | readexactly n =>
    simp only [EncryptedStream.start]
    by_cases hlen : (s.buffer.length : ℤ) < n
    · rw [if_pos hlen]
      refine ⟨rfl, rfl, ?_, fun _ => rfl, ?_⟩
      · intro _ k hcall
        cases hcall
      · intro got k hsome
        cases hsome
    · rw [if_neg hlen]
      exact takeBuffer_settles s _ n
  | read n =>
    simp only [EncryptedStream.start]
    by_cases hbuffer : s.buffer = []
    · rw [if_neg (not_not_intro hbuffer)]
      refine ⟨rfl, rfl, fun _ _ _ => hbuffer, fun _ => rfl, ?_⟩
      intro got k hsome
      cases hsome
    · rw [if_pos hbuffer]
      exact takeBuffer_settles s _ n

variable {s₀ : RC4} {sent lost : Bytes} {r : Reader}

theorem InStep.answer {call : StreamCall} {answer : Answer} {stream : EncryptedStream}
    {rest : Bytes}
    (hfollows : Follows next s₀ sent stream.dec (r.returned ++ (answer.bytes ++ stream.buffer))
      (rest ++ lost))
    (hended : ∀ got n, answer = .incompleteRead got n → stream.buffer = got ∧ rest = []) :
    InStep s₀ sent lost (r.settle call rest (some answer, stream)) := by
  constructor
  · have hreturned : (r.settle call rest (some answer, stream)).returned =
        r.returned ++ answer.bytes := by simp [Reader.settle, Reader.returned]
    rw [hreturned, List.append_assoc]
    exact hfollows
  · intro n hcall
    cases hcall
  · intro got n hlast
    apply hended got n
    simpa [Reader.settle] using hlast

theorem InStep.settle {call : StreamCall} {stream : EncryptedStream}
    {res : Option Answer × EncryptedStream} {rest : Bytes}
    (hfollows : Follows next s₀ sent stream.dec (r.returned ++ stream.buffer) (rest ++ lost))
    (hended : ∀ got n, r.answers.getLast? = some (.incompleteRead got n) →
      stream.buffer = got ∧ rest = [])
    (hres : Settles stream call res) : InStep s₀ sent lost (r.settle call rest res) := by
  obtain ⟨_ | answer, stream'⟩ := res
  · obtain rfl : stream' = stream := hres.waits rfl
    refine ⟨hfollows, ?_, hended⟩
    intro n hcall
    exact hres.clean rfl n (Option.some.inj hcall)
  · apply InStep.answer
    · rw [hres.dec]
      have hsplit : stream.buffer = answer.bytes ++ stream'.buffer := hres.split
      rwa [← hsplit]
    · rintro got n rfl
      exact absurd rfl (hres.returns got n)

theorem InStep.start (s₀ : RC4) (delivered lost : Bytes) {stream : EncryptedStream}
    (hdec : stream.dec = s₀) (hbuffer : stream.buffer = []) :
    InStep s₀ (delivered ++ lost) lost (Reader.start stream delivered) := by
  constructor
  · subst hdec
    simp only [Reader.start, Reader.returned, hbuffer]
    exact Follows.start _
  · intro n hcall
    cases hcall
  · intro got n hlast
    cases hlast

theorem InStep.receive (h : InStep s₀ sent lost r) {call : StreamCall} {raw : Bytes}
    (hcall : r.call = some call) (hserves : Serves (r.stream.asked call) r.rest raw) :
    InStep s₀ sent lost
      (r.settle call (r.rest.drop raw.length) (r.stream.resume raw call)) := by
  obtain ⟨rest, hrest⟩ := hserves.front
  have hdrop : r.rest.drop raw.length = rest := by rw [← hrest, List.drop_left]
  have hread : Follows next s₀ sent (r.stream.dec.process raw).2
      (r.returned ++ (r.stream.buffer ++ (r.stream.dec.process raw).1)) (rest ++ lost) := by
    have hfollows := h.follows
    rw [← hrest, List.append_assoc] at hfollows
    rw [process_fst, process_snd, ← List.append_assoc]
    exact hfollows.read
  rw [hdrop]
  by_cases hraw : raw = []
  · -- the transport is at its end, or the call asked for nothing
    subst hraw
    obtain rfl : rest = r.rest := hrest
    cases call with
    | readexactly n =>
      have hend : r.rest = [] := by
        rcases hserves.atEnd rfl with hasked | hend
        · simp only [EncryptedStream.asked] at hasked
          omega
        · exact hend
      apply InStep.answer h.follows
      intro got k hanswer
      cases hanswer
      exact ⟨rfl, hend⟩
    | read n =>
      apply InStep.answer h.follows
      intro got k hanswer
      cases hanswer
  · cases call with
    | readexactly n =>
      simp only [EncryptedStream.resume, if_neg hraw]
      refine .settle hread ?_ (start_settles _ _)
      intro got k hlast
      rw [(h.ended got k hlast).2] at hrest
      exact absurd (List.append_eq_nil_iff.mp hrest).1 hraw
    | read n =>
      have hclean := h.clean n hcall
      simp only [EncryptedStream.resume, if_neg hraw]
      rw [hclean, List.nil_append] at hread
      apply InStep.answer
      · rw [hclean, List.append_nil]
        exact hread
      · intro got k hanswer
        cases hanswer

theorem InStep.step {act : Act} {r' : Reader} (h : InStep s₀ sent lost r)
    (hstep : r.step act = some r') : InStep s₀ sent lost r' := by
  rcases step_cases hstep with ⟨call, -, rfl⟩ | ⟨call, raw, hcall, hserves, rfl⟩
  · exact .settle h.follows h.ended (start_settles r.stream call)
  · exact h.receive hcall hserves

/-- The calls of a reader give the writer's bytes, however writes, segments and calls cut them, and
the buffer holds what was decrypted and not yet given, also when the transport has ended. -/
theorem streams_transparent {writer reader : EncryptedStream} {datas : List Bytes}
    {delivered : Bytes} {acts : List Act} {r : Reader} (hdec : reader.dec = writer.enc)
    (hbuffer : reader.buffer = []) (hwire : delivered <+: (writer.writeAll datas).1)
    (hrun : (Reader.start reader delivered).run acts = some r) :
    r.returned <+: datas.flatten ∧
      r.returned ++ r.stream.buffer = datas.flatten.take (delivered.length - r.rest.length) ∧
      (∀ got n, r.answers.getLast? = some (.incompleteRead got n) →
        r.stream.buffer = got ∧ r.returned ++ got = datas.flatten.take delivered.length) ∧
      ∀ (c : RC4) (a b : Bytes),
        (c.process a).1 ++ ((c.process a).2.process b).1 = (c.process (a ++ b)).1 := by
  obtain ⟨lost, hlost⟩ := hwire
  rw [writeAll_wire] at hlost
  have hin : InStep writer.enc (crypt next writer.enc datas.flatten) lost r := by
    apply run_keeps (P := InStep _ _ lost) (fun _ _ _ h hstep => h.step hstep) _ hrun
    rw [← hlost]
    exact .start _ delivered lost hdec hbuffer
  obtain ⟨taken, hsent, -, hseen⟩ := hin.follows.split
  have htake : r.returned ++ r.stream.buffer =
      datas.flatten.take (delivered.length - r.rest.length) := by
    have hplain := congrArg (crypt next writer.enc) hsent
    rw [crypt_crypt, crypt_append, ← hseen] at hplain
    have hlen : taken.length = delivered.length - r.rest.length := by
      have := congrArg List.length (hlost.trans hsent)
      simp only [List.length_append] at this
      omega
    have hseenlen : (r.returned ++ r.stream.buffer).length = taken.length := by
      rw [hseen, length_crypt]
    rw [hplain, ← hlen, ← hseenlen, List.take_left]
  refine ⟨?_, htake, ?_, ?_⟩
  · exact (List.prefix_append _ _).trans (htake ▸ List.take_prefix _ _)
  · intro got n hlast
    obtain ⟨hgot, hrest⟩ := hin.ended got n hlast
    rw [hgot, hrest] at htake
    exact ⟨hgot, htake⟩
  · intro c a b
    exact (process_append c a b).1.symm

def somePeer : EncryptedStream := ⟨RC4.new [107, 101, 121] 2, RC4.new [107, 101, 121] 2, []⟩

def someWrites : List Bytes := [[104], [], [105, 33]]

/-- An over-read, and an end of the transport within `readexactly`. -/
def someActs (wire : Bytes) : List Act :=
  [.calls (.readexactly 1), .receives (wire.take 2), .calls (.readexactly 5),
    .receives (wire.drop 2), .receives []]

theorem streams_transparent_some : ∃ r,
    (Reader.start somePeer (somePeer.writeAll someWrites).1).run
      (someActs (somePeer.writeAll someWrites).1) = some r ∧
      r.answers.length = 2 ∧ r.returned <+: someWrites.flatten := by
  have hwire : ∃ x y z, (somePeer.writeAll someWrites).1 = [x, y, z] := by
    rw [writeAll_wire]
    exact ⟨_, _, _, rfl⟩
  obtain ⟨x, y, z, hwire⟩ := hwire
  have hrun : ∃ r, (Reader.start somePeer [x, y, z]).run (someActs [x, y, z]) = some r ∧
      r.answers.length = 2 := by
    simp only [somePeer]
    generalize RC4.new [107, 101, 121] 2 = c
    have hfirst : Serves 4096 [x, y, z] [x, y] := by
      constructor <;> simp
    have hsecond : Serves 4096 [z] [z] := by
      constructor <;> simp
    have hend : Serves 4096 [] [] := by
      constructor <;> simp
    simp [Reader.run, Reader.step, Reader.start, someActs, Reader.settle, EncryptedStream.start,
      EncryptedStream.asked, EncryptedStream.resume, EncryptedStream.takeBuffer, sliceBound, crypt,
      hfirst, hsecond, hend]
  obtain ⟨r, hsome, hanswers⟩ := hrun
  rw [← hwire] at hsome
  exact ⟨r, hsome, hanswers, (streams_transparent rfl rfl (List.prefix_refl _) hsome).1⟩

end StreamTransparency
