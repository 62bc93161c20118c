import Aiobt.LocalDiscovery

/-! # Discovering each other

What one instance announces and another one hears. -/
namespace DiscoveredPeers

open ByteStrings LocalDiscovery
open SurrogateUtf8 (PyStr)
open PyDecimal (digitCount WithinLimit)

theorem flatten_slices {α : Type} (l : List α) (k m : ℕ) :
    ((List.range m).map fun i => slice l (k * i) (k * i + k)).flatten = l.take (k * m) := by
  induction m with
  | zero => rfl
  | succ m ih =>
    rw [List.range_succ, List.map_append, List.flatten_append, ih, List.map_singleton,
      List.flatten_singleton, slice_add, Nat.mul_succ, List.take_add]

theorem flatten_batches (hashList : List Bytes) : (batches hashList).flatten = hashList := by
  rw [batches, flatten_slices, List.take_of_length_le]
  simp only [maxAnnounceBatch]
  omega

theorem length_of_batch {hashList batch : List Bytes} (h : batch ∈ batches hashList) :
    batch.length ≤ maxAnnounceBatch := by
  obtain ⟨i, -, rfl⟩ := List.mem_map.mp h
  rw [slice_add]
  exact List.length_take_le _ _

theorem mem_of_batch {hashList batch : List Bytes} {ih : Bytes} (h : batch ∈ batches hashList)
    (hmem : ih ∈ batch) : ih ∈ hashList := by
  rw [← flatten_batches hashList]
  exact List.mem_flatten_of_mem h hmem

theorem inline_groupHost (group : Multicast) : Inline (groupHost group) := by
  cases group with
  | v4 => decide
  | v6 => decide

def message (d : Discovery) (batch : List Bytes) (group : Multicast) : Datagram :=
  ⟨group, messageBytes d.listenPort batch d.cookie.text (groupHost group)⟩

theorem sendBatch_eq (d : Discovery) (batch : List Bytes) :
    sendBatch d batch = some ((openGroups d).map (message d batch)) := by
  simp only [sendBatch, formatAnnounce_eq d.cookie.plain (inline_groupHost _), Option.map_some]
  exact List.mapM_pure

theorem sendAnnounce_eq (d : Discovery) (hashList : List Bytes) :
    sendAnnounce d hashList =
      some ((batches hashList).flatMap fun batch => (openGroups d).map (message d batch)) := by
  have hall : (batches hashList).mapM (sendBatch d) =
      some ((batches hashList).map fun batch => (openGroups d).map (message d batch)) := by
    rw [funext (sendBatch_eq d)]
    exact List.mapM_pure
  rw [sendAnnounce, hall, List.flatMap_def]
  rfl

def heard (d : Discovery) (anns : List LSDAnnounce) : List DiscoveredPeer :=
  (anns.filter fun ann => ann.cookie ≠ d.cookie.text ∧ ann.infoHash ∈ d.infoHashes).map fun ann =>
    ⟨ann.host, ann.port, ann.infoHash⟩

def queue (d : Discovery) (peers : List DiscoveredPeer) : Discovery :=
  { d with peerQueue := d.peerQueue ++ peers }

theorem queue_queue (d : Discovery) (peers more : List DiscoveredPeer) :
    queue (queue d peers) more = queue d (peers ++ more) := by
  simp only [queue, List.append_assoc]

@[simp] theorem heard_queue (d : Discovery) (peers : List DiscoveredPeer) (anns : List LSDAnnounce) :
    heard (queue d peers) anns = heard d anns := rfl

theorem heard_append (d : Discovery) (anns more : List LSDAnnounce) :
    heard d (anns ++ more) = heard d anns ++ heard d more := by
  rw [heard, List.filter_append, List.map_append]
  rfl

theorem queue_nil (d : Discovery) : queue d [] = d := by
  simp only [queue, List.append_nil]

theorem hear_eq (d : Discovery) (ann : LSDAnnounce) : hear d ann = queue d (heard d [ann]) := by
  unfold hear
  split
  · next hown =>
    have hnone : heard d [ann] = [] := by simp [heard, hown]
    rw [hnone, queue_nil]
  · next hother =>
    split
    · next hknown =>
      have hone : heard d [ann] = [⟨ann.host, ann.port, ann.infoHash⟩] := by
        simp [heard, hother, hknown]
      rw [hone, queue]
    · next hunknown =>
      have hnone : heard d [ann] = [] := by simp [heard, hunknown]
      rw [hnone, queue_nil]

theorem foldl_hear (d : Discovery) (anns : List LSDAnnounce) :
    anns.foldl hear d = queue d (heard d anns) := by
  induction anns generalizing d with
  | nil => exact (queue_nil d).symm
  | cons ann anns ih =>
    rw [List.foldl_cons, ih, hear_eq, heard_queue, queue_queue, ← heard_append]
    rfl

/-- What is heard does not depend on the order of arrival, but for its order in the queue. -/
theorem receiveAll_eq (maxDigits : ℕ) (source : Multicast → PyStr) (d : Discovery)
    (arrivals : List Datagram) :
    receiveAll maxDigits source d arrivals = queue d (arrivals.flatMap fun datagram =>
      heard d (parseAnnounce maxDigits datagram.data (source datagram.group))) := by
  induction arrivals generalizing d with
  | nil => exact (queue_nil d).symm
  | cons datagram arrivals ih =>
    have hstep := ih (receive maxDigits source d datagram)
    rw [receive, foldl_hear] at hstep
    rw [receiveAll, List.foldl_cons, receive, foldl_hear, List.flatMap_cons, ← queue_queue]
    exact hstep

theorem parse_batch {maxDigits : ℕ} {d : Discovery} {batch : List Bytes}
    (hport : WithinLimit maxDigits (digitCount d.listenPort)) (hbatch : ∀ ih ∈ batch, ih ∈ d.infoHashes)
    (group : Multicast) (source : PyStr) :
    parseAnnounce maxDigits (message d batch group).data source =
      batch.map fun ih => ⟨source, d.listenPort, ih, d.cookie.text⟩ :=
  parse_message hport d.cookie.plain (inline_groupHost group)
    (fun ih hmem => d.length ih (hbatch ih hmem)) source

variable {a b : Discovery}

theorem heard_other {source : PyStr} (hcookie : a.cookie.text ≠ b.cookie.text) (batch : List Bytes) :
    heard b (batch.map fun ih => ⟨source, a.listenPort, ih, a.cookie.text⟩) =
      (batch.filter fun ih => ih ∈ b.infoHashes).map fun ih => ⟨source, a.listenPort, ih⟩ := by
  rw [heard, List.filter_map, List.map_map]
  simp [Function.comp_def, hcookie]

theorem heard_own {source : PyStr} (batch : List Bytes) :
    heard a (batch.map fun ih => ⟨source, a.listenPort, ih, a.cookie.text⟩) = [] := by
  rw [heard, List.filter_map]
  simp [Function.comp_def]

theorem flatMap_swap {α β γ : Type} (l : List α) (m : List β) (f : α → β → List γ) :
    (l.flatMap fun x => m.flatMap (f x)).Perm (m.flatMap fun y => l.flatMap fun x => f x y) := by
  induction m with
  | nil => simp
  | cons y m ih =>
    simp only [List.flatMap_cons]
    exact (List.flatMap_append_perm l (fun x => f x y) fun x => m.flatMap (f x)).symm.trans
      (ih.append_left _)

/-- The peers that `b` should find in the announcements of `a`: one for each group and each hash that
both announce. -/
def common (a b : Discovery) (hashList : List Bytes) (source : Multicast → PyStr) : List DiscoveredPeer :=
  (openGroups a).flatMap fun group =>
    (hashList.filter fun ih => ih ∈ b.infoHashes).map fun ih => ⟨source group, a.listenPort, ih⟩

theorem heard_sent {maxDigits : ℕ} {source : Multicast → PyStr} (d : Discovery) {hashList : List Bytes}
    (hport : WithinLimit maxDigits (digitCount a.listenPort))
    (hlist : ∀ ih ∈ hashList, ih ∈ a.infoHashes) :
    (((batches hashList).flatMap fun batch => (openGroups a).map (message a batch)).flatMap
        fun datagram => heard d (parseAnnounce maxDigits datagram.data (source datagram.group))) =
      (batches hashList).flatMap fun batch => (openGroups a).flatMap fun group =>
        heard d (batch.map fun ih => ⟨source group, a.listenPort, ih, a.cookie.text⟩) := by
  rw [List.flatMap_assoc]
  apply List.flatMap_congr
  intro batch hbatch
  rw [List.flatMap_map]
  apply List.flatMap_congr
  intro group _
  rw [parse_batch hport (fun ih hmem => hlist ih (mem_of_batch hbatch hmem))]
  rfl

theorem heard_all (hcookie : a.cookie.text ≠ b.cookie.text) (hashList : List Bytes)
    (source : Multicast → PyStr) :
    ((batches hashList).flatMap fun batch => (openGroups a).flatMap fun group =>
        heard b (batch.map fun ih => ⟨source group, a.listenPort, ih, a.cookie.text⟩)).Perm
      (common a b hashList source) := by
  refine (flatMap_swap _ _ _).trans (List.Perm.of_eq (List.flatMap_congr fun group _ => ?_))
  simp only [heard_other hcookie]
  conv_rhs => rw [← flatten_batches hashList]
  rw [List.filter_flatten, List.map_flatten, List.map_map, List.flatMap_def]
  rfl

theorem heard_none (hashList : List Bytes) (source : Multicast → PyStr) :
    ((batches hashList).flatMap fun batch => (openGroups a).flatMap fun group =>
      heard a (batch.map fun ih => ⟨source group, a.listenPort, ih, a.cookie.text⟩)) = [] := by
  simp [heard_own]

/-- Each datagram carries at most fifty hashes. When all datagrams that one instance sends have
arrived at another, in any order, there is one new peer for each group that they were sent to and
each hash that both announce, and no other. The sender itself finds none. -/
theorem discovered_once (maxDigits : ℕ) (a b : Discovery) (hcookie : a.cookie.text ≠ b.cookie.text)
    (hport : WithinLimit maxDigits (digitCount a.listenPort)) (hashes : Enumeration a.infoHashes)
    (source : Multicast → PyStr) :
    ∃ sent, sendAnnounce a hashes.list = some sent ∧
      (∀ datagram ∈ sent, ∃ batch : List Bytes, batch.length ≤ maxAnnounceBatch ∧
        datagram = message a batch datagram.group) ∧
      ∀ arrivals : List Datagram, arrivals.Perm sent →
        (∃ peers, (receiveAll maxDigits source b arrivals).peerQueue = b.peerQueue ++ peers ∧
          peers.Perm (common a b hashes.list source)) ∧
        (receiveAll maxDigits source a arrivals).peerQueue = a.peerQueue := by
  have hlist : ∀ ih ∈ hashes.list, ih ∈ a.infoHashes := fun ih => (hashes.mem ih).mp
  refine ⟨_, sendAnnounce_eq a hashes.list, ?_, fun arrivals hperm => ⟨?_, ?_⟩⟩
  · intro datagram hmem
    obtain ⟨batch, hbatch, hmem⟩ := List.mem_flatMap.mp hmem
    obtain ⟨group, -, rfl⟩ := List.mem_map.mp hmem
    exact ⟨batch, length_of_batch hbatch, rfl⟩
  · refine ⟨_, congrArg Discovery.peerQueue (receiveAll_eq maxDigits source b arrivals), ?_⟩
    refine (hperm.flatMap_right _).trans ?_
    rw [heard_sent b hport hlist]
    exact heard_all hcookie hashes.list source
  · have hnone := hperm.flatMap_right fun datagram =>
      heard a (parseAnnounce maxDigits datagram.data (source datagram.group))
    rw [heard_sent a hport hlist, heard_none] at hnone
    rw [receiveAll_eq, hnone.eq_nil, queue_nil]

def instanceOf (digit : ℕ) (h : (AsciiText.hexValue digit).isSome) (infoHashes : Finset Bytes)
    (length : ∀ ih ∈ infoHashes, ih.length = 20) (transports : Multicast → Bool) : Discovery where
  listenPort := 6881
  cookie := ⟨List.replicate 16 digit, List.length_replicate .., fun c hc => by
    rw [List.eq_of_mem_replicate hc]
    exact h⟩
  infoHashes := infoHashes
  length := length
  transports := transports
  peerQueue := []

def hash (byte : UInt8) : Bytes := List.replicate 20 byte

def sender (transports : Multicast → Bool) : Discovery :=
  instanceOf 97 (by decide) {hash 1, hash 2} (by decide) transports

def listener : Discovery :=
  instanceOf 98 (by decide) {hash 2, hash 3} (by decide) fun group => group = .v4

def sourceOf : Multicast → PyStr
  | .v4 => [49]
  | .v6 => [58]

theorem discovered_once_v4 :
    ∃ sent peers, sendAnnounce (sender fun group => group = .v4) [hash 1, hash 2] = some sent ∧
      (receiveAll 4300 sourceOf listener sent).peerQueue = peers ∧
      peers.Perm [⟨[49], 6881, hash 2⟩] := by
  obtain ⟨sent, hsent, -, hall⟩ := discovered_once 4300 (sender fun group => group = .v4) listener
    (by decide) (by decide) ⟨[hash 1, hash 2], by decide, by simp [sender, instanceOf]⟩ sourceOf
  obtain ⟨⟨peers, hqueue, hperm⟩, -⟩ := hall sent (.refl sent)
  exact ⟨sent, peers, hsent, hqueue, hperm⟩

/-- Where the sender has both transports, one hash is found twice. -/
theorem discovered_twice :
    (sendAnnounce (sender fun _ => true) [hash 1, hash 2]).map
        (fun sent => (receiveAll 4300 sourceOf listener sent).peerQueue) =
      some [⟨[49], 6881, hash 2⟩, ⟨[58], 6881, hash 2⟩] := by
  decide +kernel

end DiscoveredPeers
