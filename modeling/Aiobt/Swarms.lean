import Aiobt.BitfieldLayout
import Aiobt.FifoNetworks
import Aiobt.PieceChoice
import Aiobt.TransferTurns

/-! # Swarms

Any number of clients share one torrent. Their tasks exchange messages over connections that keep
the order; other connections of a client lead to strangers, who may send anything. Each client
starts with whatever is on its disk. -/
namespace Swarms

open ByteStrings PieceTracker PeerMessages PieceEngine SessionTasks PieceSearch EngineTurns FlatStore
open BitfieldLayout BlockTransfer VerifiedPieces ServedPieces TransferTurns PeerRuns FifoNetworks

def takenBy : SessionAction → Option Message
  | .peer (.receives msg _) => some msg
  | _ => none

def sentByProc : SessionAction → Proc → Proc → List Message
  | .peer a, .peer t, .peer t' => sentBy a t t'
  | _, _, _ => []

/-- A Cancel goes out on the connection of another task of the session. -/
def cancelledBy : SessionAction → Proc → List Message
  | .peer (.cancels _ true _), .peer t =>
    match t.point with
    | .sendCancel index spec _ offset _ => [.cancel index offset (blockLen spec offset)]
    | _ => []
  | _, _ => []

def protocol (sha1 : Bytes → Bytes) (kind : StorageKind) :
    Protocol Session Proc SessionAction Message where
  step := program sha1 kind
  takes := takenBy
  sends := sentByProc
  relays := cancelledBy

theorem mem_cancelledBy {b : SessionAction} {t : Task} {msg : Message}
    (h : msg ∈ cancelledBy b (.peer t)) : ∃ index spec addrs offset left,
      t.point = .sendCancel index spec addrs offset left ∧
        msg = .cancel index offset (blockLen spec offset) := by
  unfold cancelledBy at h
  split at h
  · next hproc =>
    obtain rfl := Proc.peer.inj hproc
    split at h
    · next hp => exact ⟨_, _, _, _, _, hp, List.mem_singleton.mp h⟩
    · cases h
  · cases h

/-- New processes have not begun, and a Cancel is sent to the peer it is meant for. -/
def Joining (c : Net Session Proc Message) : FifoNetworks.Move Proc SessionAction Message → Prop
  | .connect _ _ p q => Fresh p ∧ Fresh q
  | .accept _ p => Fresh p
  | .hears _ _ => True
  | .act _ (.peer (.cancels addr true _)) via =>
    ∀ y, c.ends[via]? = some y → ∃ t, y.proc = .peer t ∧ t.addr = addr
  | .act _ _ _ => True

/-- Clients of one torrent, each with its own storage, before any of their tasks. -/
def swarm (tr : Tracker) (storage : ℕ → Bytes) : Net Session Proc Message :=
  ⟨fun n => newSession tr (storage n), []⟩

section
variable (sha1 : Bytes → Bytes) (content : ℕ → Bytes) (specs : List PieceSpec)

def Told (r s : Session) : Message → Prop
  | .bitfield data => ∀ i, hasPiece data i = true → i ∈ r.tracker.got
  | .havePiece i => i ∈ r.tracker.got
  | .request index begin length =>
    index ∈ s.tracker.got ∧ ∃ spec, specs[index]? = some spec ∧ (begin, length) ∈ blocks spec
  | .piece index begin data =>
    ∃ spec, specs[index]? = some spec ∧ verifyPiece sha1 (content index) spec.hash = true ∧
      ∃ block ∈ blocks spec, (begin, data) = answer (content index) block
  | _ => True

def InFlight (r : Option Session) (s : Session) (msg : Message) : Prop :=
  ∀ r₀, r = some r₀ → Told sha1 content specs r₀ s msg

structure Partner (s r : Session) (t : Task) : Prop where
  announced : t.peerPieces ⊆ r.tracker.got
  fetched : ∀ i, t.currentPiece = some i → i ∈ r.tracker.got
  arrived : ∀ i spec, t.currentPiece = some i → t.pieceSpec = some spec →
    ∃ arrivals, (∀ block ∈ arrivals, block ∈ blocks spec) ∧
      t.pieceBlocks = stored (content i) arrivals
  asking : ∀ spec offset, t.point = .sendRequest spec offset →
    ∃ i, t.currentPiece = some i ∧ t.pieceSpec = some spec ∧ (offset, blockLen spec offset) ∈ blocks spec
  asked : ∀ index begin length free, .received (.request index begin length) free ∈ t.log →
    ∃ spec, specs[index]? = some spec ∧ (begin, length) ∈ blocks spec
  log : LogOk sha1 content specs s t

/-- A client has a piece, and its storage holds the right bytes of it. -/
def Has (s : Session) (i : ℕ) : Prop := i ∈ s.tracker.got ∧ Stored sha1 content specs s i

/-- A task that has written a piece has it, and a task with a client at the other end is its
partner. -/
structure Member (s : Session) (r : Option Session) (p : Proc) : Prop where
  ok : ProcOk sha1 content specs s p
  written : ∀ t, p = .peer t → ∀ index spec, stage t.point = .written index spec →
    index ∈ s.tracker.got
  partner : ∀ t r₀, p = .peer t → r = some r₀ → Partner sha1 content specs s r₀ t

def Grows (s s' : Session) : Prop := KeepsRight content specs s s' ∧ s.tracker.got ⊆ s'.tracker.got

end

variable {sha1 : Bytes → Bytes} {kind : StorageKind} {content : ℕ → Bytes} {specs : List PieceSpec}
  {size : ℕ} {a : Action} {s s' r r' : Session} {t t' : Task} {msg : Message}

theorem Told.mono (h : Told sha1 content specs r s msg) (hr : r.tracker.got ⊆ r'.tracker.got)
    (hs : s.tracker.got ⊆ s'.tracker.got) : Told sha1 content specs r' s' msg := by
  cases msg with
  | bitfield data => exact fun i hi => hr (h i hi)
  | havePiece i => exact hr h
  | request index begin length => exact ⟨hs h.1, h.2⟩
  | piece index begin data => exact h
  | _ => trivial

theorem Partner.mono (h : Partner sha1 content specs s r t) (hr : r.tracker.got ⊆ r'.tracker.got)
    (hs : s.tracker.got ⊆ s'.tracker.got) : Partner sha1 content specs s' r' t where
  announced := h.announced.trans hr
  fetched i hi := hr (h.fetched i hi)
  arrived := h.arrived
  asking := h.asking
  asked := h.asked
  log := ⟨h.log.1.mono hs, h.log.2.mono hs⟩

theorem stable :
    Stable (Member sha1 content specs) (InFlight sha1 content specs) (Grows content specs) where
  refl s := ⟨.of_same rfl, Finset.Subset.refl _⟩
  proc hs hr h := by
    refine ⟨procOk_stable h.ok hs.1, fun t hp index spec hw => hs.2 (h.written t hp index spec hw),
      fun t r₀ hp hr₀ => ?_⟩
    obtain ⟨r₁, hr₁, hgrows⟩ := Stable.remote_some hr hr₀
    exact (h.partner t r₁ hp hr₁).mono hgrows.2 hs.2
  message hr hs h r₀ hr₀ := by
    obtain ⟨r₁, hr₁, hgrows⟩ := Stable.remote_some hr hr₀
    exact (h r₁ hr₁).mono hgrows.2 hs.2

theorem newTask_partner (s r : Session) (addr : Address) (given : Bool) (rates : Option Rates) :
    Partner sha1 content specs s r (newTask addr given rates) where
  announced := Finset.empty_subset _
  fetched i hi := by cases hi
  arrived i spec hi := by cases hi
  asking spec offset hp := by cases hp
  asked index begin length free hm := by cases hm
  log := by
    refine ⟨⟨fun l offset length hl => ?_, fun l index begin block hl => ?_⟩, readOk_of_not_reading rfl⟩
    · simp [newTask] at hl
    · simp [newTask] at hl

theorem member_of_fresh {p : Proc} {r : Option Session} (h : Fresh p) :
    Member sha1 content specs s r p := by
  refine ⟨procOk_of_fresh h, fun t hp index spec hw => ?_, fun t r₀ hp _ => ?_⟩
  · subst hp
    obtain ⟨addr, given, rates, rfl⟩ := h
    cases hw
  · subst hp
    obtain ⟨addr, given, rates, rfl⟩ := h
    exact newTask_partner s r₀ addr given rates

theorem Partner.within (h : ∀ m, takenBy (.peer a) = some m → Told sha1 content specs r s m)
    (hspecs : s.tracker.specs = specs) : Within s t a := by
  unfold Within
  split
  · next index begin length hint =>
    intro _ _ spec hspec
    obtain ⟨-, spec', hat, hblock⟩ := h _ rfl
    rw [hspecs, hat] at hspec
    obtain rfl := Option.some.inj hspec
    exact block_inside hblock
  · trivial

/-- The partner's pieces and blocks after a step. -/
theorem Partner.transfer (h : Partner sha1 content specs s r t) (hok : TaskOk sha1 specs t)
    (htaken : ∀ m, takenBy (.peer a) = some m → Told sha1 content specs r s m)
    (hstep : Transfer a s t t') :
    t'.peerPieces ⊆ r.tracker.got ∧ (∀ i, t'.currentPiece = some i → i ∈ r.tracker.got) ∧
      (∀ i spec, t'.currentPiece = some i → t'.pieceSpec = some spec →
        ∃ arrivals, (∀ block ∈ arrivals, block ∈ blocks spec) ∧
          t'.pieceBlocks = stored (content i) arrivals) ∧
      (∀ spec offset, t'.point = .sendRequest spec offset →
        ∃ i, t'.currentPiece = some i ∧ t'.pieceSpec = some spec ∧
          (offset, blockLen spec offset) ∈ blocks spec) := by
  have hquiet : requesting t'.point = false → ∀ spec offset, t'.point ≠ .sendRequest spec offset := by
    intro hpoint spec offset heq
    rw [heq] at hpoint
    cases hpoint
  cases hstep with
  | keeps hkept =>
    have hsame := hkept.same
    rw [hsame.peerPieces, hsame.currentPiece, hsame.pieceSpec, hsame.pieceBlocks]
    refine ⟨h.announced, h.fetched, h.arrived, fun spec offset hp => h.asking spec offset ?_⟩
    rw [← hkept.asking (by rw [hp]; rfl), hp]
  | drops hpieces hnone hpoint =>
    rw [hpieces, hnone]
    refine ⟨h.announced, fun i hi => ?_, fun i spec hi => ?_,
      fun spec offset hp => absurd hp (hquiet hpoint spec offset)⟩
    · cases hi
    · cases hi
  | @learns data hint ha hsame hpoint hinterest =>
    rw [hsame.peerPieces, hsame.currentPiece, hsame.pieceSpec, hsame.pieceBlocks]
    refine ⟨fun i hi => ?_, h.fetched, h.arrived,
      fun spec offset hp => absurd hp (hquiet hpoint spec offset)⟩
    have hsent : Told sha1 content specs r s (.bitfield data) := htaken _ (by rw [ha]; rfl)
    exact hsent i (mem_bitfieldToSet.mp hi).2
  | @hears index hint ha hsame hpoint hinterest =>
    rw [hsame.peerPieces, hsame.currentPiece, hsame.pieceSpec, hsame.pieceBlocks]
    refine ⟨Finset.insert_subset ?_ h.announced, h.fetched, h.arrived,
      fun spec offset hp => absurd hp (hquiet hpoint spec offset)⟩
    exact htaken (.havePiece index) (by rw [ha]; rfl)
  | @starts index spec hpeer hlacks hat hpieces hcur hspec hblocks hfree hpoint =>
    rw [hpieces, hcur, hspec, hblocks]
    refine ⟨h.announced, fun i hi => ?_, fun i sp hi hsp => ⟨[], by simp, rfl⟩, fun sp offset hp => ?_⟩
    · obtain rfl := Option.some.inj hi
      exact h.announced hpeer
    · rcases hpoint with ⟨hno, -⟩ | ⟨heq, hpos, -⟩
      · exact absurd hp (hquiet hno sp offset)
      · obtain ⟨rfl, rfl⟩ := Await.sendRequest.inj (heq.symm.trans hp)
        exact ⟨index, rfl, rfl, first_block hpos⟩
  | @asks spec offset hp hsame hpoint hlt hlog =>
    rw [hsame.peerPieces, hsame.currentPiece, hsame.pieceSpec, hsame.pieceBlocks]
    refine ⟨h.announced, h.fetched, h.arrived, fun sp off hp' => ?_⟩
    obtain ⟨rfl, rfl⟩ := Await.sendRequest.inj (hpoint.symm.trans hp')
    obtain ⟨i, hi, hspec, hblock⟩ := h.asking spec offset hp
    exact ⟨i, hi, hspec, next_block hblock hlt⟩
  | @gets index begin block hint ha hcur hsame hpoint hwaits =>
    rw [hsame.peerPieces, hsame.currentPiece, hsame.pieceSpec, hsame.pieceBlocks]
    refine ⟨h.announced, h.fetched, fun i spec hi hspec => ?_,
      fun spec offset hp => absurd hp (hquiet hpoint spec offset)⟩
    obtain rfl : index = i := Option.some.inj (hcur.symm.trans hi)
    obtain ⟨arrivals, harrivals, hstored⟩ := h.arrived index spec hcur hspec
    have hsent : Told sha1 content specs r s (.piece index begin block) := htaken _ (by rw [ha]; rfl)
    obtain ⟨spec', hat, -, b, hb, heq⟩ := hsent
    obtain rfl : spec = spec' := by
      obtain ⟨spec'', hspec'', hat'⟩ := hok.current index hcur
      rw [hspec] at hspec''
      obtain rfl := Option.some.inj hspec''
      exact Option.some.inj (hat'.symm.trans hat)
    obtain ⟨rfl, rfl⟩ := Prod.mk.inj heq
    refine ⟨arrivals ++ [b], fun x hx => ?_, ?_⟩
    · rcases List.mem_append.mp hx with hx | hx
      · exact harrivals x hx
      · obtain rfl := List.mem_singleton.mp hx
        exact hb
    · rw [hstored, stored, stored, List.foldl_append]
      rfl

theorem Partner.step (h : Partner sha1 content specs s r t) (hok : TaskOk sha1 specs t)
    (hgood : Verified sha1 content specs size s) (htiles : Tiles specs size)
    (htaken : ∀ m, takenBy (.peer a) = some m → Told sha1 content specs r s m)
    (hstep : taskStep sha1 kind a s t = some (s', t')) : Partner sha1 content specs s r t' := by
  have hworked := worked_of_step hstep
  obtain ⟨hannounced, hfetched, harrived, hasking⟩ := h.transfer hok htaken hworked.transfer
  refine ⟨hannounced, hfetched, harrived, hasking, fun index begin length free hm => ?_, ?_⟩
  · have hheard : .received (.request index begin length) free ∈ t.log ++ heardBy a t := by
      rcases hworked.log with hlog | ⟨e, hlog, hadds⟩
      · rwa [hlog] at hm
      · rw [hlog] at hm
        rcases List.mem_append.mp hm with hm | hm
        · exact hm
        · rw [← List.mem_singleton.mp hm] at hadds
          cases hadds
    rcases List.mem_append.mp hheard with hold | hnew
    · exact h.asked index begin length free hold
    · cases a with
      | receives msg hint =>
        obtain ⟨rfl, -⟩ := Entry.received.inj (List.mem_singleton.mp hnew)
        exact (htaken _ rfl).2
      | _ => cases hnew
  · exact logOk_step hgood htiles h.log (Partner.within htaken hgood.specs_eq) (logged_of_step hstep)

theorem built_pieces {tr : Tracker} {data : Bytes} (h : buildBitfield tr = some data) {i : ℕ}
    (hi : hasPiece data i = true) : i ∈ tr.got := by
  simp only [buildBitfield] at h
  split at h
  · cases h
  · obtain rfl := Option.some.inj h
    by_cases hlt : i / 8 < ((tr.pieceCount + 7).fdiv 8).toNat
    · rw [hasPiece_map_bitfieldByte hlt] at hi
      exact of_decide_eq_true hi
    · rw [hasPiece, List.getElem?_eq_none (by simpa using hlt)] at hi
      cases hi

theorem Partner.sends (h : Partner sha1 content specs s r t') (hok : TaskOk sha1 specs t')
    (hindex : ∀ (i : ℕ) (spec : PieceSpec), specs[i]? = some spec → spec.index = i)
    (hwritten : ∀ index spec, stage t.point = .written index spec → index ∈ s.tracker.got)
    (hworked : Worked a s t t') (hmsg : msg ∈ sentBy a t t') :
    Told sha1 content specs s r msg := by
  rcases hworked.sent hmsg with rfl | rfl | hadds
  · trivial
  · trivial
  · cases hadds with
    | bitfield _ _ hbuilt => exact fun i hi => built_pieces hbuilt hi
    | interested _ _ => trivial
    | unchoke => trivial
    | @request spec offset hp hlt =>
      obtain ⟨i, hi, hspec, hblock⟩ := h.asking spec offset hp
      obtain ⟨spec', hspec', hat⟩ := hok.current i hi
      obtain rfl : spec = spec' := Option.some.inj (hspec.symm.trans hspec')
      have hsame : spec.index.toNat = i := by rw [hindex i spec hat, Int.toNat_natCast]
      rw [requestOf, hsame]
      exact ⟨h.fetched i hi, spec, hat, hblock⟩
    | @piece index begin length offset data hp hover hlog =>
      have hprefix : t.log ++ [.sent (.piece index begin data)] <+: t'.log := by rw [hlog]
      obtain ⟨l₀, length', spec, hl₀, hserve, hdata, hlength⟩ :=
        h.log.1.piece t.log index begin data hprefix
      obtain ⟨spec', hat, hblock⟩ := h.asked index begin length' false (by
        rw [hlog, hl₀]
        simp)
      obtain rfl : spec = spec' := Option.some.inj (hserve.listed.symm.trans hat)
      refine ⟨spec, hat, hserve.verified, (begin, length'), hblock, ?_⟩
      rw [answer, slice_add, hdata]
      rfl
    | @havePiece index spec hp => exact hwritten index spec (by rw [hp]; rfl)
    | notInterested => trivial

theorem init_index {pieceLength totalLength : ℤ} {raw : Bytes} {tr : Tracker}
    (htr : init pieceLength totalLength raw = some tr) {i : ℕ} {spec : PieceSpec}
    (hat : tr.specs[i]? = some spec) : spec.index = i := by
  rw [(specs_eq_of_init htr).2.1] at hat
  rw [PieceChoice.buildSpecsLoop_index hat, Nat.cast_zero, zero_add]

section
variable {pieceLength totalLength : ℤ} {raw : Bytes} {tr : Tracker} {storage : ℕ → Bytes}
  {c : Net Session Proc Message}

theorem keeps_of_step {b : SessionAction} {p p' : Proc} {o : Option Session}
    (htiles : Tiles specs size) (honly : OnlyContent sha1 content specs)
    (hindex : ∀ (i : ℕ) (spec : PieceSpec), specs[i]? = some spec → spec.index = i)
    (hgood : Verified sha1 content specs size s) (hmember : Member sha1 content specs s o p)
    (hstep : program sha1 kind b s p = some (s', p'))
    (htaken : ∀ m, takenBy b = some m → InFlight sha1 content specs o s m) :
    Keeps (protocol sha1 kind) (Verified sha1 content specs size) (Member sha1 content specs)
      (InFlight sha1 content specs) (Grows content specs) b s o p s' p' := by
  cases p with
  | peer t =>
    obtain ⟨a, t', rfl, rfl, htask⟩ := program_peer hstep
    have hturn := turn_of_step htask
    have hok : TaskOk sha1 specs t := hmember.ok
    obtain ⟨hgood', hok', hkeep⟩ := hgood.turn htiles honly hok hturn
    have hgot := hturn.got_subset
    have hpartner : ∀ r₀, o = some r₀ → Partner sha1 content specs s r₀ t' := fun r₀ hr₀ =>
      (hmember.partner t r₀ rfl hr₀).step hok hgood htiles (fun m hm => htaken m hm r₀ hr₀) htask
    refine ⟨hgood', ⟨hkeep, hgot⟩, ⟨hok', fun u hu index spec hw => ?_, fun u r₀ hu hr₀ => ?_⟩, ?_, ?_⟩
    · obtain rfl := Proc.peer.inj hu
      rcases hturn.written hw with hold | hnew
      · exact hgot (hmember.written t rfl index spec hold)
      · exact hnew
    · obtain rfl := Proc.peer.inj hu
      exact (hpartner r₀ hr₀).mono (Finset.Subset.refl _) hgot
    · intro r₀ hr₀ m hm s₁ hs₁
      obtain rfl := Option.some.inj hs₁
      have hsent := (hpartner r₀ hr₀).sends hok' hindex (hmember.written t rfl)
        (worked_of_step htask) hm
      exact hsent.mono hgot (Finset.Subset.refl _)
    · intro r₀ m hm s₁ _
      obtain ⟨index, spec, addrs, offset, left, -, rfl⟩ := mem_cancelledBy hm
      trivial
  | starter st =>
    obtain ⟨b, st', rfl, rfl, hstart⟩ := program_starter hstep
    obtain ⟨hgood', hok', hkeep⟩ := hgood.start htiles honly hmember.ok hstart
    refine ⟨hgood', ⟨hkeep, start_got_subset hstart⟩, ⟨hok', fun u hu => ?_, fun u r₀ hu => ?_⟩, ?_, ?_⟩
    · cases hu
    · cases hu
    · intro r₀ _ m hm
      cases hm
    · intro r₀ m hm
      cases hm

theorem holds_of_reach (htr : init pieceLength totalLength raw = some tr)
    (hsize : ∀ n, (storage n).length = totalLength.toNat) (honly : OnlyContent sha1 content tr.specs)
    (hreach : Reach (protocol sha1 kind) Joining (swarm tr storage) c) :
    Holds (Verified sha1 content tr.specs totalLength.toNat) (Member sha1 content tr.specs)
      (InFlight sha1 content tr.specs) c := by
  refine hreach.rely_guarantee stable (fun n => ?_) ?_ ?_ ?_ ?_
  · have hempty : ∀ i, i ∉ (newSession tr (storage n)).tracker.got := fun i hi => by
      rw [show (newSession tr (storage n)).tracker.got = ∅ from (specs_eq_of_init htr).2.2.2.1] at hi
      cases hi
    exact ⟨rfl, specs_length htr, hsize n, fun i hi => absurd hi (hempty i),
      fun i hi => absurd hi (hempty i)⟩
  · intro c n m p q _ hok
    exact ⟨member_of_fresh hok.1, member_of_fresh hok.2⟩
  · intro c n p _ hok
    exact member_of_fresh hok
  · intro c e x m _ _ r₀ hr₀
    cases hr₀
  · intro c e b via x s p hholds _ hx hstep htaken
    exact keeps_of_step (init_tiles htr) honly (fun i spec hat => init_index htr hat)
      (hholds.nodes x.node) (hholds.procs e x hx) hstep htaken

theorem remote_node {x : End Proc Message} (h : c.remote x = some r) : ∃ n, r = c.shared n := by
  obtain ⟨y, -, hy⟩ := Option.map_eq_some_iff.mp h
  exact ⟨y.node, hy.symm⟩

def Plain : FifoNetworks.Move Proc SessionAction Message → Prop
  | .connect _ _ p q => Fresh p ∧ Fresh q
  | .accept _ p => Fresh p
  | .hears _ _ => False
  | .act _ (.peer (.cancels _ true _)) _ => False
  | .act _ _ _ => True

instance : (m : FifoNetworks.Move Proc SessionAction Message) → Decidable (Plain m)
  | .connect _ _ p q => inferInstanceAs (Decidable (Fresh p ∧ Fresh q))
  | .accept _ p => inferInstanceAs (Decidable (Fresh p))
  | .hears _ _ => .isFalse id
  | .act _ (.peer (.cancels _ true _)) _ => .isFalse id
  | .act _ (.peer (.cancels _ false _)) _ => .isTrue trivial
  | .act _ (.peer .starts) _ => .isTrue trivial
  | .act _ (.peer (.receives _ _)) _ => .isTrue trivial
  | .act _ (.peer (.returns _)) _ => .isTrue trivial
  | .act _ (.peer .raises) _ => .isTrue trivial
  | .act _ (.peer .fetches) _ => .isTrue trivial
  | .act _ (.peer (.stores _)) _ => .isTrue trivial
  | .act _ (.peer (.rechokes _)) _ => .isTrue trivial
  | .act _ (.start _) _ => .isTrue trivial

theorem joining_of_plain {m : FifoNetworks.Move Proc SessionAction Message} (h : Plain m)
    (c : Net Session Proc Message) : Joining c m := by
  cases m with
  | connect n m p q => exact h
  | accept n p => exact h
  | hears e msg => trivial
  | act e b via =>
    cases b with
    | start b => trivial
    | peer a =>
      cases a with
      | cancels addr connected hint =>
        cases connected with
        | true => exact absurd h id
        | false => trivial
      | _ => trivial

/-- The first client finds the torrent on its disk, and the second one meets it. -/
def meeting : List (FifoNetworks.Move Proc SessionAction Message) :=
  [.accept 0 (.starter ⟨∅, 0, .starting⟩), .act 0 (.start .starts) 0, .act 0 (.start .returns) 0] ++
    List.replicate 20 (.act 0 (.start .fetches) 0) ++ [.act 0 (.start .returns) 0,
    .connect 0 1 (.peer (newTask ⟨[2], 6881⟩ true none)) (.peer (newTask ⟨[1], 6881⟩ true none)),
    .act 1 (.peer .starts) 0, .act 1 (.peer (.returns 0)) 0]

def asking : List (FifoNetworks.Move Proc SessionAction Message) :=
  [.act 2 (.peer .starts) 0, .act 2 (.peer (.returns 0)) 0,
    .act 2 (.peer (.receives (.bitfield [128]) 0)) 0, .act 2 (.peer (.returns 0)) 0,
    .act 1 (.peer (.receives (.bitfield [0]) 0)) 0, .act 1 (.peer (.receives .interested 0)) 0,
    .act 1 (.peer (.returns 0)) 0, .act 2 (.peer (.receives .unchoke 0)) 0,
    .act 2 (.peer (.returns 0)) 0]

def answering : List (FifoNetworks.Move Proc SessionAction Message) :=
  .act 1 (.peer (.receives (.request 0 0 20) 0)) 0 :: List.replicate 20 (.act 1 (.peer .fetches) 0) ++
    [.act 1 (.peer (.returns 0)) 0]

def disks (n : ℕ) : Bytes := List.replicate 20 (if n = 0 then 7 else 0)

theorem one_piece (htr : init 20 20 (List.replicate 20 7) = some tr) :
    OnlyContent id (fun _ => List.replicate 20 7) tr.specs := by
  have hone : tr.specs = [⟨0, 0, 20, List.replicate 20 7⟩] := by
    obtain rfl := Option.some.inj htr
    decide
  exact only_sevens hone

def Waits (c : Net Session Proc Message) (e : ℕ) (inbox : List Message) : Prop :=
  (c.ends[e]?.map End.inbox) = some inbox ∧ (c.ends[e]?.bind c.remote).isSome

instance (c : Net Session Proc Message) (e : ℕ) (inbox : List Message) : Decidable (Waits c e inbox) :=
  inferInstanceAs (Decidable (_ ∧ _))

theorem Waits.end {e : ℕ} {inbox : List Message} (h : Waits c e inbox) :
    ∃ x r, c.ends[e]? = some x ∧ c.remote x = some r ∧ x.inbox = inbox := by
  obtain ⟨x, hx, hinbox⟩ := Option.map_eq_some_iff.mp h.1
  obtain ⟨r, hr⟩ := Option.isSome_iff_exists.mp h.2
  rw [hx, Option.bind_some] at hr
  exact ⟨x, r, hx, hr, hinbox⟩

/-- Whatever strangers send, and in whatever order clients join and act: what one client has announced
to another, in messages that are still on their way or in what the other has made of them, it has in
its storage; so a task only fetches pieces that the client at the other end has. -/
theorem announcements_true (htr : init pieceLength totalLength raw = some tr)
    (hsize : ∀ n, (storage n).length = totalLength.toNat) (honly : OnlyContent sha1 content tr.specs)
    (hreach : Reach (protocol sha1 kind) Joining (swarm tr storage) c) {e : ℕ}
    {x : End Proc Message} (hx : c.ends[e]? = some x) (hr : c.remote x = some r) :
    (∀ i, .havePiece i ∈ x.inbox → Has sha1 content tr.specs r i) ∧
      (∀ data i, .bitfield data ∈ x.inbox → hasPiece data i = true → Has sha1 content tr.specs r i) ∧
        ∀ t, x.proc = .peer t → (∀ i ∈ t.peerPieces, Has sha1 content tr.specs r i) ∧
          ∀ i, t.currentPiece = some i → Has sha1 content tr.specs r i := by
  have hholds := holds_of_reach htr hsize honly hreach
  obtain ⟨n, rfl⟩ := remote_node hr
  have hhas : ∀ i ∈ (c.shared n).tracker.got, Has sha1 content tr.specs (c.shared n) i :=
    fun i hi => ⟨hi, (hholds.nodes n).stored i hi⟩
  refine ⟨fun i hm => ?_, fun data i hm hi => ?_, fun t ht => ?_⟩
  · exact hhas i (hholds.inboxes e x hx _ hm _ hr)
  · exact hhas i (hholds.inboxes e x hx _ hm _ hr i hi)
  · have hpartner := (hholds.procs e x hx).partner t _ ht hr
    exact ⟨fun i hi => hhas i (hpartner.announced hi), fun i hi => hhas i (hpartner.fetched i hi)⟩

/-- The bitfield of the first client names the piece. -/
theorem announcements_true_meeting :
    ∃ tr c r, init 20 20 (List.replicate 20 7) = some tr ∧
      run (protocol id .files) (swarm tr disks) meeting = some c ∧ Waits c 2 [.bitfield [128]] ∧
      (c.ends[2]?.bind c.remote) = some r ∧ Has id (fun _ => List.replicate 20 7) tr.specs r 0 := by
  obtain ⟨tr, htr⟩ : ∃ tr, init 20 20 (List.replicate 20 7) = some tr := ⟨_, rfl⟩
  have hmeets : (run (protocol id .files) (swarm tr disks) meeting).any
      (fun c => decide (Waits c 2 [.bitfield [128]])) = true := by
    obtain rfl := Option.some.inj htr
    decide +kernel
  obtain ⟨c, hrun, hdecide⟩ := (Option.any_eq_true _ _).mp hmeets
  have hwaits := of_decide_eq_true hdecide
  obtain ⟨x, r, hx, hr, hinbox⟩ := hwaits.end
  have hplain : ∀ m ∈ meeting, Plain m := by decide +kernel
  have hreach : Reach (protocol id .files) Joining (swarm tr disks) c :=
    Reach.refl.run (fun m hm => joining_of_plain (hplain m hm)) hrun
  refine ⟨tr, c, r, htr, hrun, hwaits, by rw [hx, Option.bind_some, hr], ?_⟩
  refine (announcements_true htr (fun n => List.length_replicate) (one_piece htr) hreach hx hr).2.1
    [128] 0 ?_ (by decide)
  rw [hinbox]
  exact List.mem_singleton_self _

/-- A Request on its way between clients asks for one block of a piece that the receiver has in its
storage, and a Piece on its way holds one block of the verified content, whole. -/
theorem transfers_exact (htr : init pieceLength totalLength raw = some tr)
    (hsize : ∀ n, (storage n).length = totalLength.toNat) (honly : OnlyContent sha1 content tr.specs)
    (hreach : Reach (protocol sha1 kind) Joining (swarm tr storage) c) {e : ℕ}
    {x : End Proc Message} (hx : c.ends[e]? = some x) (hr : c.remote x = some r) :
    (∀ index begin length, .request index begin length ∈ x.inbox →
      Has sha1 content tr.specs (c.shared x.node) index ∧
        ∃ spec, tr.specs[index]? = some spec ∧ (begin, length) ∈ blocks spec) ∧
      ∀ index begin data, .piece index begin data ∈ x.inbox →
        ∃ spec, tr.specs[index]? = some spec ∧ verifyPiece sha1 (content index) spec.hash = true ∧
          (begin, data.length) ∈ blocks spec ∧ data = flatRead (content index) begin data.length := by
  have hholds := holds_of_reach htr hsize honly hreach
  refine ⟨fun index begin length hm => ?_, fun index begin data hm => ?_⟩
  · obtain ⟨hgot, hspec⟩ := hholds.inboxes e x hx _ hm _ hr
    exact ⟨⟨hgot, (hholds.nodes x.node).stored index hgot⟩, hspec⟩
  · obtain ⟨spec, hat, hverify, block, hblock, heq⟩ := hholds.inboxes e x hx _ hm _ hr
    obtain ⟨rfl, rfl⟩ := Prod.mk.inj heq
    have hlength : (slice (content index) block.1 (block.1 + block.2)).length = block.2 :=
      answer_length (honly index spec hat _ hverify).2 hblock
    refine ⟨spec, hat, hverify, ?_, ?_⟩
    · rw [hlength]
      exact hblock
    · rw [hlength, slice_add]
      rfl

theorem transfers_exact_answer :
    ∃ tr c c' x spec, init 20 20 (List.replicate 20 7) = some tr ∧
      run (protocol id .files) (swarm tr disks) (meeting ++ asking) = some c ∧
      run (protocol id .files) c answering = some c' ∧
      c.ends[1]? = some x ∧ .request 0 0 20 ∈ x.inbox ∧
      Has id (fun _ => List.replicate 20 7) tr.specs (c.shared x.node) 0 ∧
      tr.specs[0]? = some spec ∧ (0, 20) ∈ blocks spec ∧
      Waits c' 2 [.piece 0 0 (flatRead (List.replicate 20 7) 0 20)] := by
  obtain ⟨tr, htr⟩ : ∃ tr, init 20 20 (List.replicate 20 7) = some tr := ⟨_, rfl⟩
  have hasks : (run (protocol id .files) (swarm tr disks) (meeting ++ asking)).any
      (fun c => decide (Waits c 1 [.request 0 0 20]) &&
        (run (protocol id .files) c answering).any fun c' =>
          decide (Waits c' 2 [.piece 0 0 (flatRead (List.replicate 20 7) 0 20)])) = true := by
    obtain rfl := Option.some.inj htr
    decide +kernel
  obtain ⟨c, hrun, hboth⟩ := (Option.any_eq_true _ _).mp hasks
  obtain ⟨hdecide, hanswers⟩ := Bool.and_eq_true_iff.mp hboth
  obtain ⟨c', hrun', hdecide'⟩ := (Option.any_eq_true _ _).mp hanswers
  have hwaits := of_decide_eq_true hdecide
  have hwaits' := of_decide_eq_true hdecide'
  obtain ⟨x, r, hx, hr, hinbox⟩ := hwaits.end
  have hplain : ∀ m ∈ meeting ++ asking, Plain m := by decide +kernel
  have hreach : Reach (protocol id .files) Joining (swarm tr disks) c :=
    Reach.refl.run (fun m hm => joining_of_plain (hplain m hm)) hrun
  have hmem : .request 0 0 20 ∈ x.inbox := by
    rw [hinbox]
    exact List.mem_singleton_self _
  obtain ⟨hhas, spec, hspec, hblock⟩ :=
    (transfers_exact htr (fun n => List.length_replicate) (one_piece htr) hreach hx hr).1 0 0 20 hmem
  exact ⟨tr, c, c', x, spec, htr, hrun, hrun', hx, hmem, hhas, hspec, hblock, hwaits'⟩

end

end Swarms
