import Aiobt.Rc4
import Aiobt.SegmentedReads

/-! # The streams of an MSE handshake

`EncryptedStream` and `PlaintextStream` of `mse.py`. -/
namespace MseStreams

open ByteStrings StreamCiphers Rc4 SegmentedReads

inductive MSEStream where
  | encrypted (enc dec : RC4) (buffer : Bytes)
  | plaintext

def MSEStream.write : MSEStream → Bytes → Bytes × MSEStream
  | .encrypted enc dec buffer, data => ((enc.process data).1, .encrypted (enc.process data).2 dec buffer)
  | .plaintext, data => (data, .plaintext)

inductive Call where
  | readexactly (n : ℕ)
  | read (n : ℕ)
  deriving DecidableEq, Repr

structure Reading where
  stream : MSEStream
  call : Call

inductive ReadError where
  | incompleteRead
  deriving DecidableEq, Repr

abbrev ReadOutcome := Outcome Reading (Bytes × MSEStream) ReadError

def readexactlyLoop (enc dec : RC4) (buffer : Bytes) (n : ℕ) : ReadOutcome :=
  if buffer.length < n then .waits ⟨.encrypted enc dec buffer, .readexactly n⟩
  else .returns (buffer.take n, .encrypted enc dec (buffer.drop n))

def startRead : MSEStream → Call → ReadOutcome
  | .encrypted enc dec buffer, .readexactly n => readexactlyLoop enc dec buffer n
  | .encrypted enc dec buffer, .read n =>
    if buffer ≠ [] then .returns (buffer.take n, .encrypted enc dec (buffer.drop n))
    else .waits ⟨.encrypted enc dec buffer, .read n⟩
  | .plaintext, call => .waits ⟨.plaintext, call⟩

def reads : Coroutine Reading (Bytes × MSEStream) ReadError where
  demand
    | ⟨.encrypted _ _ buffer, .readexactly n⟩ => .upTo (max (n - buffer.length) 4096)
    | ⟨.plaintext, .readexactly n⟩ => .exactly n
    | ⟨_, .read n⟩ => .upTo n
  feed
    | ⟨.encrypted enc dec buffer, .readexactly n⟩, raw =>
      ([], readexactlyLoop enc (dec.process raw).2 (buffer ++ (dec.process raw).1) n)
    | ⟨.encrypted enc dec buffer, .read _⟩, raw =>
      ([], .returns ((dec.process raw).1, .encrypted enc (dec.process raw).2 buffer))
    | ⟨.plaintext, _⟩, raw => ([], .returns (raw, .plaintext))
  eof
    | ⟨_, .readexactly _⟩ => .raises .incompleteRead
    | ⟨stream, .read _⟩ => .returns ([], stream)

/-- The bytes that calls are still to give, where `rest` is to come from the transport. -/
def MSEStream.unread : MSEStream → Bytes → Bytes
  | .encrypted _ dec buffer, rest => buffer ++ crypt next dec rest
  | .plaintext, rest => rest

/-- What calls that follow each other give, however the transport cuts its bytes. -/
inductive Yields : MSEStream → Bytes → Bytes → MSEStream → Bytes → Prop
  | none (stream rest) : Yields stream rest [] stream rest
  | call {stream rest out stream' rest' more stream'' rest''} (call : Call) (segments : List Bytes) :
      run reads (startRead stream call) segments = some (.returns (out, stream')) →
      rest = segments.flatten ++ rest' → Yields stream' rest' more stream'' rest'' →
      Yields stream rest (out ++ more) stream'' rest''

/-- Calls give `data` and nothing else, in order. -/
def Delivers (stream : MSEStream) (rest data : Bytes) : Prop :=
  (∀ out stream' rest', Yields stream rest out stream' rest' → out <+: data) ∧
    ∃ stream' rest', Yields stream rest data stream' rest'

def pendingUnread : ReadOutcome → Bytes → Bytes
  | .waits r, rest => r.stream.unread rest
  | .returns (out, stream), rest => out ++ stream.unread rest
  | .raises _, _ => []

def CleanRead : ReadOutcome → Prop
  | .waits ⟨.encrypted _ _ buffer, .read _⟩ => buffer = []
  | _ => True

theorem readexactlyLoop_unread (enc dec : RC4) (buffer : Bytes) (n : ℕ) (rest : Bytes) :
    pendingUnread (readexactlyLoop enc dec buffer n) rest = buffer ++ crypt next dec rest ∧
      CleanRead (readexactlyLoop enc dec buffer n) := by
  unfold readexactlyLoop
  split
  · exact ⟨rfl, trivial⟩
  · refine ⟨?_, trivial⟩
    rw [pendingUnread, MSEStream.unread, ← List.append_assoc, List.take_append_drop]

theorem startRead_unread (stream : MSEStream) (call : Call) (rest : Bytes) :
    pendingUnread (startRead stream call) rest = stream.unread rest ∧
      CleanRead (startRead stream call) := by
  cases stream with
  | plaintext => exact ⟨rfl, trivial⟩
  | encrypted enc dec buffer =>
    cases call with
    | readexactly n => exact readexactlyLoop_unread enc dec buffer n rest
    | read n =>
      by_cases hbuffer : buffer = []
      · rw [startRead, if_neg (not_not_intro hbuffer)]
        exact ⟨rfl, hbuffer⟩
      · rw [startRead, if_pos hbuffer]
        refine ⟨?_, trivial⟩
        rw [pendingUnread, MSEStream.unread, MSEStream.unread, ← List.append_assoc,
          List.take_append_drop]

theorem feed_unread (r : Reading) (segment rest : Bytes) (hclean : CleanRead (.waits r)) :
    pendingUnread (reads.feed r segment).2 rest = r.stream.unread (segment ++ rest) ∧
      CleanRead (reads.feed r segment).2 := by
  obtain ⟨stream, call⟩ := r
  cases stream with
  | plaintext => exact ⟨rfl, trivial⟩
  | encrypted enc dec buffer =>
    cases call with
    | readexactly n =>
      have h := readexactlyLoop_unread enc (dec.process segment).2 (buffer ++ (dec.process segment).1)
        n rest
      refine ⟨?_, h.2⟩
      simp only [process_fst, process_snd] at h
      rw [MSEStream.unread, crypt_append, ← List.append_assoc, ← h.1]
      simp only [reads, process_fst, process_snd]
    | read n =>
      obtain rfl : buffer = [] := hclean
      refine ⟨?_, trivial⟩
      rw [MSEStream.unread, crypt_append]
      simp [reads, pendingUnread, MSEStream.unread]

/-- A call gives the next bytes of the stream. -/
theorem run_reads_unread {stream : MSEStream} {call : Call} {segments : List Bytes}
    {o : ReadOutcome} {rest : Bytes} (hrun : run reads (startRead stream call) segments = some o) :
    pendingUnread o rest = stream.unread (segments.flatten ++ rest) := by
  have hstart := startRead_unread stream call (segments.flatten ++ rest)
  refine (run_invariant (P := fun o rest' => CleanRead o ∧
    pendingUnread o rest' = stream.unread (segments.flatten ++ rest)) ?_ hrun
      ⟨hstart.2, hstart.1⟩).2
  rintro r segment rest' - ⟨hclean, htotal⟩
  have hfeed := feed_unread r segment rest' hclean
  exact ⟨hfeed.2, hfeed.1.trans htotal⟩

theorem Yields.unread {stream stream' : MSEStream} {rest out rest' : Bytes}
    (h : Yields stream rest out stream' rest') :
    stream.unread rest = out ++ stream'.unread rest' := by
  induction h with
  | none => rfl
  | call call segments hrun hrest _ ih =>
    rw [hrest, ← run_reads_unread hrun, pendingUnread, ih, List.append_assoc]

theorem yields_unread (stream : MSEStream) (rest : Bytes) :
    ∃ stream', Yields stream rest (stream.unread rest) stream' [] := by
  suffices h : ∃ stream' n segments, run reads (startRead stream (.readexactly n)) segments =
      some (.returns (stream.unread rest, stream')) ∧ rest = segments.flatten ++ [] by
    obtain ⟨stream', n, segments, hrun, hrest⟩ := h
    refine ⟨stream', ?_⟩
    rw [← List.append_nil (stream.unread rest)]
    exact .call (.readexactly n) segments hrun hrest (.none _ _)
  cases stream with
  | plaintext =>
    refine ⟨.plaintext, rest.length, [rest], ?_, by simp⟩
    have hserves : (reads.demand ⟨.plaintext, .readexactly rest.length⟩).Serves rest := rfl
    exact run_one hserves
  | encrypted enc dec buffer =>
    by_cases hrest : rest = []
    · subst hrest
      refine ⟨.encrypted enc dec [], buffer.length, [], ?_, rfl⟩
      rw [startRead, readexactlyLoop, if_neg (Nat.lt_irrefl _)]
      simp [run, MSEStream.unread]
    · have hpos := List.length_pos_iff.mpr hrest
      refine ⟨.encrypted enc (dec.process rest).2 [], buffer.length + rest.length, [rest], ?_,
        by simp⟩
      have hserves : (reads.demand ⟨.encrypted enc dec buffer,
          .readexactly (buffer.length + rest.length)⟩).Serves rest := by
        constructor
        · exact (show rest.length ≤ buffer.length + rest.length - buffer.length by omega).trans
            (Nat.le_max_left _ _)
        · intro hnil
          exact absurd hnil hrest
      rw [startRead, readexactlyLoop, if_pos (by omega), run_one hserves]
      simp [reads, readexactlyLoop, MSEStream.unread, List.take_of_length_le]

theorem delivers_iff {stream : MSEStream} {rest data : Bytes} :
    Delivers stream rest data ↔ stream.unread rest = data := by
  obtain ⟨stream', hall⟩ := yields_unread stream rest
  constructor
  · rintro ⟨hfront, stream'', rest', hdata⟩
    have hle := (hfront _ _ _ hall).length_le
    rw [hdata.unread] at hle ⊢
    rw [List.length_append] at hle
    rw [List.eq_nil_of_length_eq_zero (by omega : (stream''.unread rest').length = 0),
      List.append_nil]
  · rintro rfl
    refine ⟨fun out stream'' rest' h => ?_, stream', [], hall⟩
    rw [h.unread]
    exact List.prefix_append _ _

end MseStreams
