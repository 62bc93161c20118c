import Aiobt.SwarmProgress
import Aiobt.WireNetworks

/-! # Swarms over byte streams

Clients of one torrent whose connections carry bytes: `to_bytes` of the messages goes out, arrives
in segments of any size, and is read by `receive_message`. Strangers may send any bytes. -/
namespace WireSwarms

open ByteStrings BigEndian PieceTracker PeerMessages PieceEngine SessionTasks VerifiedPieces
open WireFraming FramedStreams Swarms SwarmProgress FifoNetworks WireNetworks

def wireBytes (m : Message) : Bytes :=
  match encodeMessage m with
  | .ok b => b
  | .error _ => []

def nextMessage (b : Bytes) : Option (Message × Bytes) :=
  match receiveMessage (some b) with
  | .ok (m, some rest) => some (m, rest)
  | _ => none

def framing : Codec Message UInt8 := ⟨wireBytes, nextMessage⟩

variable {b rest more data : Bytes} {m : Message}

theorem wireBytes_fits (h : Fits m) : wireBytes m = frame 4 (body m) := by
  rw [wireBytes, encodeMessage_fits h]

theorem nextMessage_eq : nextMessage b = some (m, rest) ↔ receiveMessage (some b) = .ok (m, some rest) := by
  unfold nextMessage
  constructor
  · intro h
    split at h
    · next heq =>
      obtain ⟨rfl, rfl⟩ := Prod.mk.inj (Option.some.inj h)
      exact heq
    · cases h
  · intro h
    rw [h]

theorem readExactly_grows {n : ℕ} {got : Bytes} (h : readExactly n b = .ok (got, rest)) (more : Bytes) :
    readExactly n (b ++ more) = .ok (got, rest ++ more) := by
  unfold readExactly at h ⊢
  split at h
  · cases h
  · next hlong =>
    obtain ⟨rfl, rfl⟩ := Prod.mk.inj (Except.ok.inj h)
    rw [if_neg (by rw [List.length_append]; omega), List.take_append_of_le_length (by omega),
      List.drop_append_of_le_length (by omega)]

theorem receiveMessage_grows (h : receiveMessage (some b) = .ok (m, some rest)) (more : Bytes) :
    receiveMessage (some (b ++ more)) = .ok (m, some (rest ++ more)) := by
  simp only [receiveMessage] at h ⊢
  split at h
  · cases h
  · next lengthBytes left hlength =>
    simp only [readExactly_grows hlength more]
    split at h
    · next hzero =>
      obtain ⟨rfl, hrest⟩ := Prod.mk.inj (Except.ok.inj h)
      obtain rfl := Option.some.inj hrest
      rw [if_pos hzero]
    · next hzero =>
      rw [if_neg hzero]
      split at h
      · cases h
      · next payload left' hpayload =>
        simp only [readExactly_grows hpayload more]
        split at h
        · cases h
        · obtain ⟨rfl, hrest⟩ := Prod.mk.inj (Except.ok.inj h)
          obtain rfl := Option.some.inj hrest
          rfl

theorem unpack_length {count : ℕ} {build : (ℕ → ℕ) → Message} (h : unpack count b build = .ok m) :
    b.length = 4 * count := by
  unfold unpack at h
  split at h
  · next hlength => exact hlength
  · cases h

/-- A message takes no more than the payload that it was read from. -/
theorem body_le (h : parseMessage data = .ok m) : (body m).length ≤ data.length := by
  have hone : ∀ {m : Message} {msgId : UInt8} {payload : Bytes}, m ≠ .keepAlive →
      4 * (fields m).length + (WireFraming.payload m).length ≤ payload.length →
      (body m).length ≤ (msgId :: payload).length := by
    intro m msgId payload hm hle
    rw [length_body hm, List.length_cons]
    omega
  unfold parseMessage at h
  split at h
  · cases h
    exact Nat.le_refl _
  · next msgId payload =>
    split at h
    case h_5 =>
      have hlength := unpack_length h
      rw [List.length_take] at hlength
      rw [unpack_ok h]
      exact hone (by simp) (by simp [fields, WireFraming.payload]; omega)
    case h_6 =>
      cases h
      exact hone (by simp) (by simp [fields, WireFraming.payload])
    case h_7 =>
      have hlength := unpack_length h
      rw [List.length_take] at hlength
      rw [unpack_ok h]
      exact hone (by simp) (by simp [fields, WireFraming.payload]; omega)
    case h_8 =>
      have hlength := unpack_length h
      rw [List.length_take] at hlength
      rw [unpack_ok h]
      exact hone (by simp) (by simp [fields, WireFraming.payload]; omega)
    case h_9 =>
      have hlength := unpack_length h
      rw [List.length_take] at hlength
      rw [unpack_ok h]
      exact hone (by simp) (by simp [fields, WireFraming.payload]; omega)
    case h_10 => cases h
    all_goals
      cases h
      exact hone (by simp) (by simp [fields, WireFraming.payload])

/-- What comes over the wire can be packed again. -/
theorem fits_of_next (h : nextMessage b = some (m, rest)) : Fits m := by
  have hreceive := nextMessage_eq.mp h
  refine ⟨(receiveMessage_ok hreceive).1, ?_⟩
  simp only [receiveMessage] at hreceive
  split at hreceive
  · cases hreceive
  · next lengthBytes left hlength =>
    split at hreceive
    · obtain ⟨rfl, -⟩ := Prod.mk.inj (Except.ok.inj hreceive)
      decide
    · split at hreceive
      · cases hreceive
      · next payload left' hpayload =>
        split at hreceive
        · cases hreceive
        · next m' hparse =>
          obtain ⟨rfl, -⟩ := Prod.mk.inj (Except.ok.inj hreceive)
          have hle := body_le hparse
          have hshort : payload.length ≤ fromBytes lengthBytes := by
            unfold readExactly at hpayload
            split at hpayload
            · cases hpayload
            · obtain ⟨rfl, -⟩ := Prod.mk.inj (Except.ok.inj hpayload)
              exact List.length_take_le _ _
          have hfour : lengthBytes.length ≤ 4 := by
            unfold readExactly at hlength
            split at hlength
            · cases hlength
            · obtain ⟨rfl, -⟩ := Prod.mk.inj (Except.ok.inj hlength)
              exact List.length_take_le _ _
          have hword : fromBytes lengthBytes < 2 ^ 32 := by
            refine lt_of_lt_of_le (fromBytes_lt _) ?_
            exact (Nat.pow_le_pow_right (by omega) hfour).trans (by norm_num)
          omega

theorem framing_lawful : framing.Lawful Fits where
  nothing := rfl
  back m hfits rest := by
    apply nextMessage_eq.mpr
    show receiveMessage (some (wireBytes m ++ rest)) = _
    rw [wireBytes_fits hfits]
    exact receiveMessage_frame hfits rest
  grows b m rest h more := nextMessage_eq.mpr (receiveMessage_grows (nextMessage_eq.mp h) more)

/-- New processes have not begun, and a Cancel is sent to the peer it is meant for. -/
def Connecting (w : Wires Session Proc UInt8) : Event Proc SessionAction UInt8 → Prop
  | .connect _ _ p q => Fresh p ∧ Fresh q
  | .accept _ p => Fresh p
  | .floods _ _ => True
  | .arrives _ _ => True
  | .act _ (.peer (.cancels addr true _)) via =>
    ∀ y, w.ports[via]? = some y → ∃ t, y.proc = .peer t ∧ t.addr = addr
  | .act _ _ _ => True

theorem connecting_matches : Matches framing Connecting Wired where
  connect _ _ _ _ _ _ h := h
  accept _ _ _ _ h := h
  hears _ _ _ _ _ h := fits_of_next h
  act w c e b via hprocs h := by
    cases b with
    | start b => trivial
    | peer a =>
      cases a with
      | cancels addr connected hint =>
        cases connected with
        | true =>
          intro z hz
          obtain ⟨y, hy, hproc⟩ := hprocs via z hz
          obtain ⟨t, ht, haddr⟩ := h y hy
          exact ⟨t, hproc.symm.trans ht, haddr⟩
        | false => trivial
      | _ => trivial

theorem connecting_realizes : Realizes Connecting Wired where
  connect _ _ _ _ _ _ h := h
  accept _ _ _ _ h := h
  floods _ _ _ := trivial
  arrives _ _ _ := trivial
  act w c e b via hprocs h := by
    cases b with
    | start b => trivial
    | peer a =>
      cases a with
      | cancels addr connected hint =>
        cases connected with
        | true =>
          intro y hy
          obtain ⟨z, hz, hproc⟩ := hprocs via y hy
          obtain ⟨t, ht, haddr⟩ := h z hz
          exact ⟨t, hproc.symm.trans ht, haddr⟩
        | false => trivial
      | _ => trivial

section
variable {pieceLength totalLength : ℤ} {raw : Bytes} {tr : Tracker} {storage : ℕ → Bytes}
  {sha1 : Bytes → Bytes} {kind : StorageKind} {content : ℕ → Bytes} {w : Wires Session Proc UInt8}

/-- Clients of one torrent, each with its own storage, before any of their tasks. -/
def wires (tr : Tracker) (storage : ℕ → Bytes) : Wires Session Proc UInt8 :=
  ⟨fun n => newSession tr (storage n), []⟩

/-- However the bytes are cut, a swarm over byte streams is a swarm over messages; what is on its way
from one client to another reads as messages, and each of them is true. -/
theorem streams_carry_messages (h1 : 1 ≤ pieceLength) (h32 : pieceLength ≤ 2 ^ 32)
    (h0 : 0 ≤ totalLength) (htr : init pieceLength totalLength raw = some tr)
    (hfew : tr.pieceCount < 2 ^ 32) (hsize : ∀ n, (storage n).length = totalLength.toNat)
    (honly : OnlyContent sha1 content tr.specs)
    (hunfolds : Unfolds framing (protocol sha1 kind) Connecting (wires tr storage) w) :
    (∃ c, Reach (protocol sha1 kind) Wired (swarm tr storage) c ∧ Refines framing w c) ∧
      ∀ (e : ℕ) (x : Port Proc UInt8) (r : Session), w.ports[e]? = some x → w.remote x = some r →
        ∃ ms, x.buffer ++ x.flight = ms.flatMap wireBytes ∧
        readMany receiveMessage ms.length (some (x.buffer ++ x.flight)) = .ok (ms, some []) ∧
        ∀ msg ∈ ms, Told sha1 content tr.specs r (w.shared x.node) msg := by
  have hfits := fun c (hreach : Reach (protocol sha1 kind) Wired (swarm tr storage) c) =>
    (orderly_of_reach h1 h32 h0 htr hfew hsize honly hreach).inboxes
  obtain ⟨c, hreach, hrefines⟩ := refines_of_unfolds framing_lawful connecting_matches hfits hunfolds
  refine ⟨⟨c, hreach, hrefines⟩, fun e x r hx hr => ?_⟩
  obtain ⟨z, hz, hcarries⟩ := hrefines.to_end hx
  have hsame : Alike Same w c := hrefines.mono fun _ _ hd => hd.toSame
  rw [hsame.remote hcarries.toSame] at hr
  have hpartner : z.partner ≠ none := by
    intro hnone
    rw [Net.remote, hnone] at hr
    cases hr
  have hstream : x.buffer ++ x.flight = z.inbox.flatMap wireBytes := hcarries.stream hpartner
  have hall := hfits c hreach e z hz
  have hholds := holds_of_reach htr hsize honly (hreach.mono joining_of_wired)
  refine ⟨z.inbox, hstream, ?_, fun msg hmsg => ?_⟩
  · have hread := readMany_flatMap z.inbox
      (fun m hm rest => nextMessage_eq.mp (framing_lawful.back m (hall m hm) rest)) []
    rw [List.append_nil] at hread
    rw [hstream]
    exact hread
  · rw [hrefines.shared, hcarries.node]
    exact hholds.inboxes e z hz msg hmsg r hr

def plain : Event Proc SessionAction UInt8 → Bool
  | .connect _ _ p q => decide (Fresh p ∧ Fresh q)
  | .accept _ p => decide (Fresh p)
  | .act _ (.peer (.cancels _ true _)) _ => false
  | _ => true

theorem connecting_of_plain {m : Event Proc SessionAction UInt8} (h : plain m = true)
    (w : Wires Session Proc UInt8) : Connecting w m := by
  cases m with
  | connect n m p q =>
    have hfresh : Fresh p ∧ Fresh q := of_decide_eq_true h
    exact hfresh
  | accept n p =>
    have hfresh : Fresh p := of_decide_eq_true h
    exact hfresh
  | floods e units => trivial
  | arrives e n => trivial
  | act e b via =>
    cases b with
    | start b => trivial
    | peer a =>
      cases a with
      | cancels addr connected hint =>
        cases connected with
        | true => cases h
        | false => trivial
      | _ => trivial

/-- The first client finds the torrent on its disk and meets the second one, to which half of its
Bitfield has come; a stranger tells the second client in two segments that it is interested. -/
def halfway : List (Event Proc SessionAction UInt8) :=
  [.accept 0 (.starter ⟨∅, 0, .starting⟩), .act 0 (.start .starts) 0, .act 0 (.start .returns) 0] ++
    List.replicate 20 (.act 0 (.start .fetches) 0) ++ [.act 0 (.start .returns) 0,
    .connect 0 1 (.peer (newTask ⟨[2], 6881⟩ true none)) (.peer (newTask ⟨[1], 6881⟩ true none)),
    .act 1 (.peer .starts) 0, .act 1 (.peer (.returns 0)) 0, .arrives 2 3,
    .accept 1 (.peer (newTask ⟨[3], 6881⟩ true none)), .act 3 (.peer .starts) 0,
    .act 3 (.peer (.returns 0)) 0, .floods 3 [0, 0, 0], .arrives 3 3, .floods 3 [1, 2], .arrives 3 2,
    .act 3 (.peer (.receives .interested 0)) 0]

def Awaits (w : Wires Session Proc UInt8) (e : ℕ) (buffer flight : Bytes) : Prop :=
  ∃ x ∈ w.ports[e]?, (w.remote x).isSome ∧ x.buffer = buffer ∧ x.flight = flight

instance (w : Wires Session Proc UInt8) (e : ℕ) (buffer flight : Bytes) :
    Decidable (Awaits w e buffer flight) :=
  match hx : w.ports[e]? with
  | none => .isFalse fun ⟨x, hm, _⟩ => by
      rw [hx] at hm
      cases hm
  | some x =>
    decidable_of_iff ((w.remote x).isSome ∧ x.buffer = buffer ∧ x.flight = flight) <| by
      constructor
      · exact fun h => ⟨x, hx, h⟩
      · rintro ⟨y, hm, h⟩
        obtain rfl := Option.some.inj (hx.symm.trans hm)
        exact h

theorem streams_carry_messages_halfway :
    ∃ tr w x r, init 20 20 (List.replicate 20 7) = some tr ∧
      play framing (protocol id .files) (wires tr disks) halfway = some w ∧ w.ports[2]? = some x ∧
      w.remote x = some r ∧ x.buffer = [0, 0, 0] ∧ x.flight = [2, 5, 128] ∧
      ∃ ms : List Message, x.buffer ++ x.flight = ms.flatMap wireBytes ∧
        ∀ msg ∈ ms, Told id (fun _ => List.replicate 20 7) tr.specs r (w.shared x.node) msg := by
  obtain ⟨tr, htr⟩ : ∃ tr, init 20 20 (List.replicate 20 7) = some tr := ⟨_, rfl⟩
  have hcount : tr.pieceCount < 2 ^ 32 := by
    obtain rfl := Option.some.inj htr
    decide
  have hawaits : (play framing (protocol id .files) (wires tr disks) halfway).any
      (fun w => decide (Awaits w 2 [0, 0, 0] [2, 5, 128])) = true := by
    obtain rfl := Option.some.inj htr
    decide +kernel
  obtain ⟨w, hplay, hdecide⟩ := (Option.any_eq_true _ _).mp hawaits
  obtain ⟨x, hx, hsome, hbuffer, hflight⟩ := of_decide_eq_true hdecide
  obtain ⟨r, hr⟩ := Option.isSome_iff_exists.mp hsome
  have hplain : ∀ m ∈ halfway, plain m = true := by decide +kernel
  have hunfolds : Unfolds framing (protocol id .files) Connecting (wires tr disks) w :=
    Unfolds.refl.play (fun m hm w => connecting_of_plain (hplain m hm) w) hplay
  obtain ⟨ms, hstream, -, htold⟩ := (streams_carry_messages (by decide) (by decide) (by decide) htr
    hcount (fun n => List.length_replicate) (one_piece htr) hunfolds).2 2 x r hx hr
  exact ⟨tr, w, x, r, htr, hplay, hx, hr, hbuffer, hflight, ms, hstream, htold⟩

/-- The sessions and tasks that a swarm over byte streams can come to are those that a swarm over
messages can come to. -/
theorem same_swarms (h1 : 1 ≤ pieceLength) (h32 : pieceLength ≤ 2 ^ 32) (h0 : 0 ≤ totalLength)
    (htr : init pieceLength totalLength raw = some tr) (hfew : tr.pieceCount < 2 ^ 32)
    (hsize : ∀ n, (storage n).length = totalLength.toNat) (honly : OnlyContent sha1 content tr.specs)
    (sessions : ℕ → Session) (procs : List Proc) :
    (∃ w, Unfolds framing (protocol sha1 kind) Connecting (wires tr storage) w ∧
      w.shared = sessions ∧ w.ports.map Port.proc = procs) ↔
    ∃ c, Reach (protocol sha1 kind) Wired (swarm tr storage) c ∧ c.shared = sessions ∧
      c.ends.map End.proc = procs := by
  have hfits := fun c (hreach : Reach (protocol sha1 kind) Wired (swarm tr storage) c) =>
    (orderly_of_reach h1 h32 h0 htr hfew hsize honly hreach).inboxes
  constructor
  · rintro ⟨w, hunfolds, rfl, rfl⟩
    obtain ⟨c, hreach, hrefines⟩ := refines_of_unfolds framing_lawful connecting_matches hfits hunfolds
    have hsame : Alike Same w c := hrefines.mono fun _ _ hd => hd.toSame
    exact ⟨c, hreach, hsame.shared.symm, hsame.procs.symm⟩
  · rintro ⟨c, hreach, rfl, rfl⟩
    obtain ⟨w, hunfolds, hmirrors⟩ := mirrors_of_reach framing_lawful connecting_realizes hfits hreach
    have hsame : Alike Same w c := hmirrors.mono fun _ _ hd => hd.toSame
    exact ⟨w, hunfolds, hsame.shared, hsame.procs⟩

/-- A client that has sent the first client a Request over messages can do so over bytes. -/
theorem same_swarms_asking :
    ∃ tr c, init 20 20 (List.replicate 20 7) = some tr ∧
      run (protocol id .files) (swarm tr disks) (meeting ++ asking) = some c ∧
      ∃ w, Unfolds framing (protocol id .files) Connecting (wires tr disks) w ∧
        w.shared = c.shared ∧ w.ports.map Port.proc = c.ends.map End.proc := by
  obtain ⟨tr, htr⟩ : ∃ tr, init 20 20 (List.replicate 20 7) = some tr := ⟨_, rfl⟩
  have hcount : tr.pieceCount < 2 ^ 32 := by
    obtain rfl := Option.some.inj htr
    decide
  obtain ⟨c, hrun⟩ : ∃ c, run (protocol id .files) (swarm tr disks) (meeting ++ asking) = some c := by
    obtain rfl := Option.some.inj htr
    exact Option.isSome_iff_exists.mp (by decide +kernel)
  have hplain : ∀ m ∈ meeting ++ asking, Plain m := by decide +kernel
  have hreach : Reach (protocol id .files) Wired (swarm tr disks) c :=
    Reach.refl.run (fun m hm => wired_of_plain (hplain m hm)) hrun
  exact ⟨tr, c, htr, hrun, (same_swarms (by decide) (by decide) (by decide) htr hcount
    (fun n => List.length_replicate) (one_piece htr) c.shared (c.ends.map End.proc)).mpr
      ⟨c, hreach, rfl, rfl⟩⟩

end

end WireSwarms
