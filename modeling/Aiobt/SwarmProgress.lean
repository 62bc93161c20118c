import Aiobt.PeerExceptions
import Aiobt.Swarms

/-! # Between clients nothing fails

Tasks that have a client at the other end go on as long as the network does: no message is refused,
no read is short, and no piece has another hash than it should have. -/
namespace SwarmProgress

open ByteStrings PieceTracker PeerMessages PieceEngine SessionTasks PieceSearch EngineTurns FlatStore
open BlockTransfer VerifiedPieces ServedPieces TransferTurns PeerRuns WireFraming PeerExceptions
open FifoNetworks Swarms
open PeerWrapper (packs)

variable {sha1 : Bytes → Bytes} {kind : StorageKind} {content : ℕ → Bytes} {specs : List PieceSpec}
  {size : ℕ} {a : PieceEngine.Action} {s s' r : Session} {t t' : Task} {msg : Message}

theorem encodeMessage_eq (hm : msg ≠ .keepAlive) : encodeMessage msg =
    (pack (1 + 4 * (fields msg).length + (payload msg).length) (msgId msg) (fields msg)).map
      (· ++ payload msg) := by
  cases msg with
  | keepAlive => exact absurd rfl hm
  | bitfield data => rfl
  | piece index begin block => rfl
  | _ => exact (map_append_nil _).symm

theorem fits_of_packs (h : packs msg = true) : Fits msg := by
  by_cases hm : msg = .keepAlive
  · subst hm
    exact ⟨fun n hn => absurd hn List.not_mem_nil, by decide⟩
  · rw [packs, encodeMessage_eq hm, pack] at h
    split at h
    · next hok =>
      split at hok
      · next hall =>
        obtain ⟨hlength, hfields⟩ := List.forall_mem_cons.mp hall
        exact ⟨hfields, by rwa [length_body hm]⟩
      · cases hok
    · cases h

def Awake (specs : List PieceSpec) (p : Await) : Prop := p = .ended ∨ PointOk specs p

def Whole (s : Session) (t : Task) : Prop :=
  ∀ index begin length offset data, t.point = .read index begin length offset data →
    fetchByte s.storage offset length data = none → data.length = length ∧ length ≤ blockSize

theorem smooth_of_step (hs : Sound s) (ht : TaskOk sha1 s.tracker.specs t)
    (hp : PointOk s.tracker.specs t.point) (hdis : t.point ≠ .disconnect) (ha : a ≠ .raises)
    (htaken : ∀ m, takenBy (.peer a) = some m → Fits m) (hwhole : Whole s t)
    (hstep : taskStep sha1 kind a s t = some (s', t')) : Smooth s.tracker.specs t t' := by
  cases a with
  | starts =>
    obtain ⟨data, hdata, hpacks⟩ := hs.bitfield
    simp only [taskStep] at hstep
    split at hstep
    · rw [hdata] at hstep
      obtain ⟨-, rfl⟩ := Prod.mk.inj (Option.some.inj hstep)
      exact ⟨.send hpacks _, by simp [Task.send], trivial⟩
    · cases hstep
  | receives m hint =>
    simp only [taskStep] at hstep
    split at hstep
    · have hsmooth := onMessage_smooth hs ht hint (htaken m rfl).fields
      rw [Option.some.inj hstep] at hsmooth
      exact hsmooth
    · cases hstep
  | returns hint =>
    cases hpoint : t.point with
    | read index begin length offset data =>
      simp only [taskStep, resume, hpoint] at hstep
      split at hstep
      · cases hstep
      · next hover =>
        obtain ⟨hlength, hsmall⟩ := hwhole index begin length offset data hpoint (not_not.mp hover)
        split at hstep
        · next hshort => exact absurd hlength hshort.2
        · obtain ⟨-, rfl⟩ := Prod.mk.inj (Option.some.inj hstep)
          rw [hpoint] at hp
          have hfits : 9 + data.length < 2 ^ 32 := by
            rw [blockSize] at hsmall
            omega
          refine ⟨.send ?_ _, by simp [Task.send], trivial⟩
          rw [packs_piece data hp.1 hp.2]
          exact decide_eq_true hfits
    | _ =>
      refine resume_smooth hs ht (fun index begin length offset data hread => ?_) hdis hp hstep
      rw [hpoint] at hread
      cases hread
  | raises => exact absurd rfl ha
  | fetches =>
    simp only [taskStep] at hstep
    split at hstep
    · next hpoint =>
      obtain ⟨byte, -, heq⟩ := Option.map_eq_some_iff.mp hstep
      obtain ⟨-, rfl⟩ := Prod.mk.inj heq
      rw [hpoint] at hp
      exact ⟨.of_log rfl, by simp [Task.goto], hp⟩
    · cases hstep
  | stores k =>
    simp only [taskStep] at hstep
    split at hstep
    · obtain ⟨byte, -, heq⟩ := Option.map_eq_some_iff.mp hstep
      obtain ⟨-, rfl⟩ := Prod.mk.inj heq
      exact ⟨.of_log rfl, hdis, hp⟩
    · cases hstep
  | cancels addr connected hint => exact cancelStep_smooth hs hp hstep
  | rechokes amChoking =>
    simp only [taskStep] at hstep
    split at hstep
    · cases hstep
    · obtain ⟨-, rfl⟩ := Prod.mk.inj (Option.some.inj hstep)
      exact ⟨.of_log rfl, hdis, hp⟩

/-- A task that has left its loop only comes to its end. -/
theorem gone_stays (hp : t.point = .ended ∨ t.point = .disconnect)
    (hstep : taskStep sha1 kind a s t = some (s', t')) :
    (t'.point = .ended ∨ t'.point = .disconnect) ∧ t'.log = t.log := by
  cases a with
  | rechokes amChoking =>
    simp only [taskStep] at hstep
    split at hstep
    · cases hstep
    · obtain ⟨-, rfl⟩ := Prod.mk.inj (Option.some.inj hstep)
      exact ⟨hp, rfl⟩
  | returns hint =>
    rcases hp with hp | hp
    · simp only [taskStep, resume, hp] at hstep
      cases hstep
    · simp only [taskStep, resume, hp] at hstep
      obtain ⟨-, rfl⟩ := Prod.mk.inj (Option.some.inj hstep)
      exact ⟨Or.inl rfl, rfl⟩
  | raises =>
    rcases hp with hp | hp
    · simp only [taskStep, hp] at hstep
      cases hstep
    · simp only [taskStep, hp] at hstep
      obtain ⟨-, rfl⟩ := Prod.mk.inj (Option.some.inj hstep)
      exact ⟨Or.inl rfl, rfl⟩
  | cancels addr connected hint => rcases hp with hp | hp <;> simp [taskStep, cancelStep, hp] at hstep
  | _ => rcases hp with hp | hp <;> simp [taskStep, hp] at hstep

theorem awake_of_gone {p : Await} (h : p = .ended ∨ p = .disconnect) : Awake specs p := by
  rcases h with rfl | rfl
  · exact Or.inl rfl
  · exact Or.inr trivial

/-- Whatever happens to a task, it waits at a point where it can go on. -/
theorem awake_of_step (hs : Sound s) (ht : TaskOk sha1 s.tracker.specs t)
    (h : Awake s.tracker.specs t.point) (htaken : ∀ m, takenBy (.peer a) = some m → Fits m)
    (hstep : taskStep sha1 kind a s t = some (s', t')) : Awake s.tracker.specs t'.point := by
  by_cases hgone : t.point = .ended ∨ t.point = .disconnect
  · exact awake_of_gone (gone_stays hgone hstep).1
  · obtain ⟨hend, hdis⟩ := not_or.mp hgone
    have hp := h.resolve_left hend
    by_cases hread : ∃ index begin length offset data, t.point = .read index begin length offset data
    · obtain ⟨index, begin, length, offset, data, hpoint⟩ := hread
      cases a with
      | returns hint =>
        simp only [taskStep, resume, hpoint] at hstep
        split at hstep
        · cases hstep
        · split at hstep
          · obtain ⟨-, rfl⟩ := Prod.mk.inj (Option.some.inj hstep)
            exact Or.inr trivial
          · obtain ⟨-, rfl⟩ := Prod.mk.inj (Option.some.inj hstep)
            exact Or.inr trivial
      | raises =>
        simp only [taskStep, hpoint] at hstep
        obtain ⟨-, rfl⟩ := Prod.mk.inj (Option.some.inj hstep)
        exact Or.inr trivial
      | fetches =>
        rw [hpoint] at hp
        simp only [taskStep, hpoint] at hstep
        obtain ⟨byte, -, heq⟩ := Option.map_eq_some_iff.mp hstep
        obtain ⟨-, rfl⟩ := Prod.mk.inj heq
        exact Or.inr hp
      | rechokes amChoking =>
        simp only [taskStep] at hstep
        split at hstep
        · cases hstep
        · obtain ⟨-, rfl⟩ := Prod.mk.inj (Option.some.inj hstep)
          exact Or.inr hp
      | _ => simp [taskStep, cancelStep, hpoint] at hstep
    · cases a with
      | raises =>
        simp only [taskStep] at hstep
        split at hstep
        · obtain ⟨-, rfl⟩ := Prod.mk.inj (Option.some.inj hstep)
          exact Or.inl rfl
        · next hpoint => exact absurd hpoint hdis
        · next hpoint => exact absurd hpoint hend
        · obtain ⟨-, rfl⟩ := Prod.mk.inj (Option.some.inj hstep)
          exact Or.inr trivial
      | _ =>
        have hwhole : Whole s t := fun index begin length offset data hpoint =>
          absurd ⟨index, begin, length, offset, data, hpoint⟩ hread
        exact Or.inr (smooth_of_step hs ht hp hdis (by simp) htaken hwhole hstep).point

/-- A task says nothing more when its network fails, or once it has left. -/
theorem quiet_of_step (h : a = .raises ∨ t.point = .ended ∨ t.point = .disconnect)
    (hstep : taskStep sha1 kind a s t = some (s', t')) : t'.log = t.log := by
  rcases h with rfl | h
  · simp only [taskStep] at hstep
    split at hstep
    · obtain ⟨-, rfl⟩ := Prod.mk.inj (Option.some.inj hstep)
      rfl
    · obtain ⟨-, rfl⟩ := Prod.mk.inj (Option.some.inj hstep)
      rfl
    · cases hstep
    · obtain ⟨-, rfl⟩ := Prod.mk.inj (Option.some.inj hstep)
      rfl
  · exact (gone_stays h hstep).2

theorem fits_of_sent (specs : List PieceSpec) (h : t'.log = t.log ∨ Smooth specs t t')
    (hmsg : msg ∈ sentBy a t t') : Fits msg := by
  rcases sentBy_cases hmsg with rfl | rfl | hm
  · exact fits_of_packs (by decide)
  · exact fits_of_packs (by decide)
  · rcases h with hlog | hsmooth
    · rw [hlog, List.drop_length] at hm
      cases hm
    · obtain ⟨entries, hlog, hpacks⟩ := hsmooth.sends
      rw [hlog, List.drop_left] at hm
      exact fits_of_packs (hpacks msg hm)

/-- What the client at the other end has sent has the hash it should have. -/
theorem Partner.no_failure (h : Partner sha1 content specs s r t) (hok : TaskOk sha1 specs t)
    (honly : OnlyContent sha1 content specs)
    (htaken : ∀ m, takenBy (.peer a) = some m → Told sha1 content specs r s m) :
    failsHash sha1 t a = false := by
  unfold failsHash
  split
  · next index begin block hint =>
    by_cases hhere : t.point = .receive ∧ t.currentPiece = some index
    · obtain ⟨spec, hspec, hat⟩ := hok.current index hhere.2
      obtain ⟨spec', hat', hverify, b, hb, heq⟩ := htaken _ rfl
      obtain rfl : spec = spec' := Option.some.inj (hat.symm.trans hat')
      obtain ⟨rfl, rfl⟩ := Prod.mk.inj heq
      obtain ⟨arrivals, harrivals, hstored⟩ := h.arrived index spec hhere.2 hspec
      have hlength := (honly index spec hat _ hverify).2
      have hmore : ∀ x ∈ arrivals ++ [b], x ∈ blocks spec := by
        intro x hx
        rcases List.mem_append.mp hx with hx | hx
        · exact harrivals x hx
        · obtain rfl := List.mem_singleton.mp hx
          exact hb
      have hset : setBlock t.pieceBlocks b.1 (slice (content index) b.1 (b.1 + b.2)) =
          stored (content index) (arrivals ++ [b]) := by
        rw [hstored, stored, stored, List.foldl_append]
        rfl
      dsimp only
      rw [hspec, hset, Option.any_some]
      by_cases hfull : pieceComplete (stored (content index) (arrivals ++ [b])) spec.length = true
      · have hall := (pieceComplete_iff hlength hmore).mp hfull
        rw [assemblePiece_stored hlength hmore hall, Option.any_some, hverify]
        simp
      · rw [Bool.eq_false_iff.mpr hfull]
        simp
    · rw [decide_eq_false hhere, Bool.false_and]
  · rfl

/-- A block that is read for a client is there, as long as it was asked for. -/
theorem Partner.whole (h : Partner sha1 content specs s r t)
    (hgood : Verified sha1 content specs size s) (htiles : Tiles specs size) : Whole s t := by
  intro index begin length offset data hp hover
  obtain ⟨l₀, spec, hlog, rfl, hserve, -, hle⟩ := h.log.2 index begin length offset data hp
  obtain ⟨spec', -, hblock⟩ := h.asked index begin length false (by
    rw [hlog]
    simp)
  refine ⟨?_, blocksFrom_small hblock⟩
  by_contra hne
  obtain ⟨right, -, hnonneg, hstored⟩ :=
    stored_byte hgood htiles hserve (show data.length < length by omega)
  rw [fetchByte, if_pos ⟨by omega, hnonneg⟩, hstored] at hover
  cases hover

section
variable {st st' : Starter}

theorem sound_start {b : StartAction} (hs : Sound s)
    (hok : ProcOk sha1 content s.tracker.specs s (.starter st))
    (hstep : startStep sha1 b s st = some (s', st')) : Sound s' := by
  have hscan : ∀ {s₁ : Session} {todo : List ℕ}, Sound s₁ → scanFrom s₁ st todo = (s', st') →
      Sound s' := by
    intro s₁ todo h₁ heq
    have hsame : Undisturbed s₁ (scanFrom s₁ st todo).1 ∧
        ProcOk sha1 content s₁.tracker.specs _ _ := scanFrom_spec rfl
    have hendgame : (scanFrom s₁ st todo).1.endgame = s₁.endgame := PieceChoice.scanFrom_endgame _ _ _
    rw [heq] at hsame hendgame
    refine h₁.of_undisturbed hsame.1 fun i hi => Or.inl ?_
    rwa [hendgame] at hi
  cases startTurn_of_step hstep with
  | ends hsame => exact hsame ▸ hs
  | checks hpoint heq =>
    have hsame := (checkResume_spec s st).1
    have hendgame := PieceChoice.checkResume_endgame s st
    rw [heq] at hsame hendgame
    refine hs.of_undisturbed hsame fun i hi => Or.inl ?_
    rwa [hendgame] at hi
  | scans todo hpoint heq => exact hscan hs heq
  | @marks idx spec data todo hpoint hverify heq =>
    simp only [ProcOk, hpoint] at hok
    have hmarked : Sound { s with tracker := s.tracker.markHave idx } := by
      refine ⟨hs.specs, hs.count, hs.few, hs.spec, fun i hi => ?_, hs.endgame⟩
      rcases Finset.mem_insert.mp hi with rfl | hi
      · have hlt := (List.getElem?_eq_some_iff.mp hok.1).1
        rwa [hs.specs] at hlt
      · exact hs.inside i hi
    exact hscan hmarked heq
  | fetches hpoint hbyte hsame => exact hsame ▸ hs

end

/-- Strangers' messages come over the wire, so that their integers and lengths fit. -/
def Wired (c : Net Session Proc Message) : FifoNetworks.Move Proc SessionAction Message → Prop
  | .hears _ msg => Fits msg
  | m => Joining c m

theorem joining_of_wired (c : Net Session Proc Message)
    (m : FifoNetworks.Move Proc SessionAction Message) (h : Wired c m) : Joining c m := by
  cases m with
  | hears e msg => trivial
  | connect n m p q => exact h
  | accept n p => exact h
  | act e a via => exact h

section
variable {pieceLength totalLength : ℤ} {raw : Bytes} {tr : Tracker} {storage : ℕ → Bytes}
  {c c' : Net Session Proc Message}

def Running (specs : List PieceSpec) (p : Proc) : Prop := ∀ t, p = .peer t → Awake specs t.point

theorem running_of_fresh {p : Proc} (h : Fresh p) : Running specs p := by
  intro t hp
  subst hp
  obtain ⟨addr, given, rates, rfl⟩ := h
  exact Or.inr trivial

theorem keeps_running {b : SessionAction} {p p' : Proc} {o : Option Session}
    (hspecs : s.tracker.specs = specs) (hs : Sound s) (hrunning : Running specs p)
    (hmember : Member sha1 content specs s o p) (hgood : Verified sha1 content specs size s)
    (htiles : Tiles specs size) (htaken : ∀ m, takenBy b = some m → Fits m)
    (hstep : program sha1 kind b s p = some (s', p')) :
    Keeps (protocol sha1 kind) Sound (fun _ _ => Running specs) (fun _ _ => Fits) (fun _ _ => True)
      b s o p s' p' := by
  subst hspecs
  cases p with
  | peer t =>
    obtain ⟨a, t', rfl, rfl, htask⟩ := program_peer hstep
    have hok : TaskOk sha1 s.tracker.specs t := hmember.ok
    have hawake := awake_of_step hs hok (hrunning t rfl) htaken htask
    refine ⟨hs.turn hok (turn_of_step htask), trivial, fun u hu => Proc.peer.inj hu ▸ hawake, ?_, ?_⟩
    · intro r₀ hr₀ m hm
      have hwhole := Partner.whole (hmember.partner t r₀ rfl hr₀) hgood htiles
      refine fits_of_sent s.tracker.specs ?_ hm
      by_cases hquiet : a = .raises ∨ t.point = .ended ∨ t.point = .disconnect
      · exact Or.inl (quiet_of_step hquiet htask)
      · rw [not_or, not_or] at hquiet
        have hp := (hrunning t rfl).resolve_left hquiet.2.1
        exact Or.inr (smooth_of_step hs hok hp hquiet.2.2 hquiet.1 htaken hwhole htask)
    · intro r₀ m hm
      obtain ⟨index, spec, addrs, offset, left, hp, rfl⟩ := mem_cancelledBy hm
      have hpoint := (hrunning t rfl).resolve_left (by simp [hp])
      rw [hp] at hpoint
      exact fits_of_packs (hs.packs_request hpoint.1 hpoint.2.1).2
  | starter st =>
    obtain ⟨b, st', rfl, rfl, hstart⟩ := program_starter hstep
    refine ⟨sound_start hs hmember.ok hstart, trivial, fun u hu => ?_, ?_, ?_⟩
    · cases hu
    · intro r₀ _ m hm
      cases hm
    · intro r₀ m hm
      cases hm

/-- Sessions stay in order, tasks wait at points where they can go on, and what is on its way can be
read from the wire. -/
theorem orderly_of_reach (h1 : 1 ≤ pieceLength) (h32 : pieceLength ≤ 2 ^ 32) (h0 : 0 ≤ totalLength)
    (htr : init pieceLength totalLength raw = some tr) (hfew : tr.pieceCount < 2 ^ 32)
    (hsize : ∀ n, (storage n).length = totalLength.toNat) (honly : OnlyContent sha1 content tr.specs)
    (hreach : Reach (protocol sha1 kind) Wired (swarm tr storage) c) :
    Holds Sound (fun _ _ => Running tr.specs) (fun _ _ => Fits) c := by
  refine hreach.recall.rely_guarantee (R := fun _ _ => True) ?_ (fun n => ?_) ?_ ?_ ?_ ?_
  · exact ⟨fun _ => trivial, fun _ _ hp => hp, fun _ _ hm => hm⟩
  · exact .of_init h1 h32 h0 htr hfew rfl
  · intro c n m p q _ hok
    have hfresh : Fresh p ∧ Fresh q := hok.1
    exact ⟨running_of_fresh hfresh.1, running_of_fresh hfresh.2⟩
  · intro c n p _ hok
    have hfresh : Fresh p := hok.1
    exact running_of_fresh hfresh
  · intro c e x m hok _
    exact hok.1
  · intro c e b via x s p hholds hok hx hstep htaken
    have hswarm := holds_of_reach htr hsize honly (hok.2.mono joining_of_wired)
    have hgood := hswarm.nodes x.node
    exact keeps_running hgood.specs_eq (hholds.nodes x.node) (hholds.procs e x hx)
      (hswarm.procs e x hx) hgood (init_tiles htr) htaken hstep

/-- A step of a task with a client at the other end, unless its network fails. -/
theorem smooth_of_acts {e : ℕ} {x : End Proc Message} (htiles : Tiles specs size)
    (hswarm : Holds (Verified sha1 content specs size) (Member sha1 content specs)
      (InFlight sha1 content specs) c)
    (horderly : Holds Sound (fun _ _ => Running specs) (fun _ _ => Fits) c)
    (hx : c.ends[e]? = some x) (hr : c.remote x = some r) (ht : x.proc = .peer t) (hlive : Live t)
    (ha : a ≠ .raises) (htaken : ∀ m, takenBy (.peer a) = some m → m ∈ x.inbox)
    (hstep : taskStep sha1 kind a (c.shared x.node) t = some (s', t')) : Smooth specs t t' := by
  have hgood := hswarm.nodes x.node
  have hspecs : (c.shared x.node).tracker.specs = specs := hgood.specs_eq
  have hmember := hswarm.procs e x hx
  have hok : TaskOk sha1 specs t := by
    have hproc := hmember.ok
    rwa [ht] at hproc
  have hgone : ¬ (t.point = .disconnect ∨ t.point = .ended) := mt stage_eq_gone.mpr hlive
  rw [not_or] at hgone
  have hpoint := (horderly.procs e x hx t ht).resolve_left hgone.2
  rw [← hspecs] at hok hpoint ⊢
  exact smooth_of_step (horderly.nodes x.node) hok hpoint hgone.1 ha
    (fun m hm => horderly.inboxes e x hx m (htaken m hm))
    (Partner.whole (hmember.partner t r ht hr) hgood htiles) hstep

theorem live_of_smooth (h : Smooth specs t t') : Live t' := by
  intro hno
  rcases stage_eq_gone.mp hno with hdis | hend
  · exact h.stays hdis
  · have hawake := h.point
    rw [hend] at hawake
    exact hawake

/-- In a swarm of clients of a torrent, whatever strangers send over the wire: as long as its network
does not fail, a task with a client at the other end goes on with every step, finds the hash of every
piece that it completes to be right, and sends only what can be read from the wire. -/
theorem partners_go_on (h1 : 1 ≤ pieceLength) (h32 : pieceLength ≤ 2 ^ 32) (h0 : 0 ≤ totalLength)
    (htr : init pieceLength totalLength raw = some tr) (hfew : tr.pieceCount < 2 ^ 32)
    (hsize : ∀ n, (storage n).length = totalLength.toNat) (honly : OnlyContent sha1 content tr.specs)
    (hreach : Reach (protocol sha1 kind) Wired (swarm tr storage) c) {e via : ℕ}
    {x : End Proc Message} (hx : c.ends[e]? = some x) (hr : c.remote x = some r)
    (ht : x.proc = .peer t) (hlive : Live t) (ha : a ≠ .raises)
    (hstep : apply (protocol sha1 kind) c (.act e (.peer a) via) = some c') :
    failsHash sha1 t a = false ∧ ∃ x' t', c'.ends[e]? = some x' ∧ x'.proc = .peer t' ∧ Live t' ∧
      ∀ msg ∈ sentBy a t t', Fits msg := by
  have hswarm := holds_of_reach htr hsize honly (hreach.mono joining_of_wired)
  have horderly := orderly_of_reach h1 h32 h0 htr hfew hsize honly hreach
  obtain ⟨y, rest, s', p', hacted⟩ := apply_act hstep
  obtain rfl : x = y := Option.some.inj (hx.symm.trans hacted.at_end)
  have hprogram : program sha1 kind (.peer a) (c.shared x.node) (.peer t) = some (s', p') :=
    ht ▸ hacted.step
  obtain ⟨b, t', hb, rfl, htask⟩ := program_peer hprogram
  obtain rfl := SessionAction.peer.inj hb
  have hmember := hswarm.procs e x hx
  have hok : TaskOk sha1 tr.specs t := by
    have hproc := hmember.ok
    rwa [ht] at hproc
  have htaken : ∀ m, takenBy (.peer a) = some m → m ∈ x.inbox := by
    intro m hm
    rw [hacted.inbox, show (protocol sha1 kind).takes (.peer a) = some m from hm]
    exact List.mem_append_left _ (List.mem_singleton_self m)
  have hsmooth :=
    smooth_of_acts (init_tiles htr) hswarm horderly hx hr ht hlive ha htaken htask
  refine ⟨?_, acted (protocol sha1 kind) c e (.peer a) via x rest (.peer t') e x, t',
    hacted.getElem? hx, if_pos rfl, live_of_smooth hsmooth,
    fun msg hm => fits_of_sent tr.specs (Or.inr hsmooth) hm⟩
  exact Partner.no_failure (hmember.partner t r ht hr) hok honly fun m hm =>
    hswarm.inboxes e x hx m (htaken m hm) r hr

theorem wired_of_plain {m : FifoNetworks.Move Proc SessionAction Message} (h : Plain m)
    (c : Net Session Proc Message) : Wired c m := by
  cases m with
  | hears e msg => exact absurd h id
  | connect n m p q => exact joining_of_plain h c
  | accept n p => exact joining_of_plain h c
  | act e b via => exact joining_of_plain h c

def Runs (c : Net Session Proc Message) (e : ℕ) : Prop :=
  ∃ x ∈ c.ends[e]?, (c.remote x).isSome ∧ ∃ t, x.proc = .peer t ∧ Live t

instance (c : Net Session Proc Message) (e : ℕ) : Decidable (Runs c e) :=
  match hx : c.ends[e]? with
  | none => .isFalse fun ⟨x, hm, _⟩ => by
      rw [hx] at hm
      cases hm
  | some ⟨n, o, .starter st, inbox⟩ => .isFalse fun ⟨x, hm, _, t, ht, _⟩ => by
      rw [hx] at hm
      obtain rfl := Option.some.inj hm
      cases ht
  | some ⟨n, o, .peer t, inbox⟩ =>
    decidable_of_iff ((c.remote ⟨n, o, .peer t, inbox⟩).isSome ∧ Live t) <| by
      constructor
      · exact fun h => ⟨_, hx, h.1, t, rfl, h.2⟩
      · rintro ⟨x, hm, hr, u, hu, hlive⟩
        obtain rfl := Option.some.inj (hx.symm.trans hm)
        obtain rfl := Proc.peer.inj hu
        exact ⟨hr, hlive⟩

theorem partners_go_on_piece :
    ∃ tr c c' t, init 20 20 (List.replicate 20 7) = some tr ∧
      run (protocol id .files) (swarm tr disks) (meeting ++ asking ++ answering) = some c ∧
      apply (protocol id .files) c (.act 2 (.peer (.receives (.piece 0 0 (List.replicate 20 7)) 0)) 0) =
        some c' ∧ (c.ends[2]?.map End.proc) = some (.peer t) ∧
      failsHash id t (.receives (.piece 0 0 (List.replicate 20 7)) 0) = false ∧ Runs c' 2 := by
  obtain ⟨tr, htr⟩ : ∃ tr, init 20 20 (List.replicate 20 7) = some tr := ⟨_, rfl⟩
  have hgoes : (run (protocol id .files) (swarm tr disks) (meeting ++ asking ++ answering)).any
      (fun c => decide (Runs c 2) && (apply (protocol id .files) c
        (.act 2 (.peer (.receives (.piece 0 0 (List.replicate 20 7)) 0)) 0)).any
          fun c' => decide (Runs c' 2)) = true := by
    obtain rfl := Option.some.inj htr
    decide +kernel
  have hcount : tr.pieceCount < 2 ^ 32 := by
    obtain rfl := Option.some.inj htr
    decide
  obtain ⟨c, hrun, hboth⟩ := (Option.any_eq_true _ _).mp hgoes
  obtain ⟨hdecide, hstep⟩ := Bool.and_eq_true_iff.mp hboth
  obtain ⟨c', happ, hdecide'⟩ := (Option.any_eq_true _ _).mp hstep
  obtain ⟨x, hx, hsome, t, ht, hlive⟩ := of_decide_eq_true hdecide
  obtain ⟨r, hr⟩ := Option.isSome_iff_exists.mp hsome
  have hplain : ∀ m ∈ meeting ++ asking ++ answering, Plain m := by decide +kernel
  have hreach : Reach (protocol id .files) Wired (swarm tr disks) c :=
    Reach.refl.run (fun m hm => wired_of_plain (hplain m hm)) hrun
  have hx : c.ends[2]? = some x := hx
  obtain ⟨hfine, -⟩ := partners_go_on (by decide) (by decide) (by decide) htr hcount
    (fun n => List.length_replicate) (one_piece htr) hreach hx hr ht hlive (by simp) happ
  exact ⟨tr, c, c', t, htr, hrun, happ, by rw [hx, Option.map_some, ht], hfine,
    of_decide_eq_true hdecide'⟩

end

end SwarmProgress
