import Aiobt.Inevitability
import Aiobt.TaskEffort

/-! # Downloads from a seed complete

From every state of a swarm in which a client is not choked by its only peer, a seed, its download
completes: in whatever order the two tasks go on, they go on until it does. -/
namespace SeededDownloads

open ByteStrings PieceTracker PeerMessages PieceEngine SessionTasks EngineTurns BlockTransfer
open VerifiedPieces TransferTurns PeerRuns PeerExceptions FifoNetworks NetworkLinks Swarms
open SwarmProgress SeedSteps LeechingPairs SeededClients TaskEffort Inevitability

variable {sha1 : Bytes → Bytes} {kind : StorageKind} {content : ℕ → Bytes} {specs : List PieceSpec}
  {size n : ℕ} {a : PieceEngine.Action} {s s' r r' : Session} {t t' u u' : Task}
  {inbox outbox rest more : List Message} {c c' : Net Session Proc Message} {e j via : ℕ}
  {x y : End Proc Message}

def Advances (sha1 : Bytes → Bytes) (kind : StorageKind) (e j : ℕ) (c c' : Net Session Proc Message) :
    Prop :=
  ∃ k a via, (k = e ∨ k = j) ∧ advances a = true ∧ Joining c (.act k (.peer a) via) ∧
    apply (protocol sha1 kind) c (.act k (.peer a) via) = some c'

/-- The Unchoke messages that are on their way, what is left of the pieces, and what is left to do
for the two tasks until something of that changes. -/
def rank (specs : List PieceSpec) (s : Session) (t u : Task) (inbox outbox : List Message) :
    ℕ ×ₗ ℕ ×ₗ ℕ :=
  toLex (inbox.count .unchoke, toLex (remaining specs s t,
    effort t.point + effort u.point + weights inbox + weights outbox))

theorem rank_lt_of_effort {m m' : ℕ} (hcount : rest.count .unchoke ≤ inbox.count .unchoke)
    (hremaining : remaining specs s' t' ≤ remaining specs s t) (hlt : m' < m)
    (hm : m = effort t.point + effort u.point + weights inbox + weights outbox)
    (hm' : m' = effort t'.point + effort u'.point + weights rest + weights more) :
    rank specs s' t' u' rest more < rank specs s t u inbox outbox := by
  subst hm hm'
  refine Prod.Lex.toLex_lt_toLex'.mpr ⟨hcount, fun _ => ?_⟩
  exact Prod.Lex.toLex_lt_toLex'.mpr ⟨hremaining, fun _ => hlt⟩

theorem advances_not_rechokes (h : advances a = true) (amChoking : Bool) : a ≠ .rechokes amChoking := by
  rintro rfl
  cases h

theorem weights_le_of_relays (h : more = [] ∨ more = cancelledBy (.peer a) (.peer t)) :
    weights more ≤ weights (cancelledBy (.peer a) (.peer t)) := by
  rcases h with rfl | rfl
  · exact Nat.zero_le _
  · exact Nat.le_refl _

/-- A step of the client's task lowers the rank. -/
theorem rank_near (hadvances : advances a = true) (hok : TaskOk sha1 specs t)
    (hwritten : ∀ index spec, stage t.point = .written index spec → index ∈ s.tracker.got)
    (hpoint : PointOk specs t.point) (hfine : failsHash sha1 t a = false) (hlive : Live t')
    (hstep : taskStep sha1 kind a s t = some (s', t'))
    (hmore : more = [] ∨ more = cancelledBy (.peer a) (.peer t)) :
    rank specs s' t' u rest (outbox ++ sentBy a t t' ++ more) <
      rank specs s t u ((takenBy (.peer a)).toList ++ rest) outbox := by
  have hcount : rest.count .unchoke ≤ ((takenBy (.peer a)).toList ++ rest).count .unchoke := by
    rw [List.count_append]
    exact Nat.le_add_left ..
  cases progress_of_step hadvances hpoint hfine hlive hstep with
  | spends hspends =>
    have hless := hspends.less
    have hextra := weights_le_of_relays hmore
    refine rank_lt_of_effort hcount (remaining_le hstep hspends.stays) ?_ rfl rfl
    rw [weights_append, weights_append, weights_append]
    omega
  | @starts hint ha _ _ =>
    refine Prod.Lex.toLex_lt_toLex.mpr (Or.inl ?_)
    subst ha
    show rest.count .unchoke < (.unchoke :: rest).count .unchoke
    rw [List.count_cons_self]
    exact Nat.lt_succ_self _
  | finishes hstage hcases =>
    refine Prod.Lex.toLex_lt_toLex'.mpr ⟨hcount, fun _ => ?_⟩
    exact Prod.Lex.toLex_lt_toLex.mpr (Or.inl
      (remaining_lt hstep hok hstage (hwritten _ _ hstage) hcases))

/-- A step of the seed's task lowers the rank. -/
theorem rank_far (hadvances : advances a = true) (hseeding : Seeding specs r u)
    (hcomplete : r.tracker.isComplete) (hpoint : PointOk specs u.point)
    (hfine : failsHash sha1 u a = false) (hlive : Live u')
    (hstep : taskStep sha1 kind a r u = some (r', u'))
    (hmore : more = [] ∨ more = cancelledBy (.peer a) (.peer u)) :
    rank specs s t u' (inbox ++ sentBy a u u' ++ more) rest <
      rank specs s t u inbox ((takenBy (.peer a)).toList ++ rest) := by
  have hsilent := silent_step (worked_of_step hstep) hseeding.rates (advances_not_rechokes hadvances)
  have hcancels : .unchoke ∉ more := by
    intro hm
    rcases hmore with rfl | rfl
    · cases hm
    · obtain ⟨_, _, _, _, _, -, heq⟩ := mem_cancelledBy hm
      cases heq
  cases progress_of_step hadvances hpoint hfine hlive hstep with
  | spends hspends =>
    have hless := hspends.less
    have hextra := weights_le_of_relays hmore
    refine rank_lt_of_effort ?_ (Nat.le_refl _) ?_ rfl rfl
    · rw [List.count_append, List.count_append, List.count_eq_zero_of_not_mem hsilent.2,
        List.count_eq_zero_of_not_mem hcancels]
      exact Nat.le_refl _
    · rw [weights_append, weights_append, weights_append]
      omega
  | starts _ hno _ => exact absurd hcomplete hno
  | @finishes index spec hstage _ =>
    rcases hseeding.loop with hs | hs
    · cases hs.symm.trans hstage
    · cases hs.symm.trans hstage

theorem near_acts {w : Link Session Proc Message}
    (hside : Side (protocol sha1 kind) c e x (.act e (.peer a) via) (link c x y) w)
    (ht : x.proc = .peer t) : ∃ s t' rest more,
      taskStep sha1 kind a (c.shared x.node) t = some (s, t') ∧
      x.inbox = (takenBy (.peer a)).toList ++ rest ∧
      (more = [] ∨ more = cancelledBy (.peer a) (.peer t)) ∧
      w = ⟨s, c.shared y.node, .peer t', y.proc, rest, y.inbox ++ sentBy a t t' ++ more⟩ := by
  cases hside with
  | @acts b via' rest s p more hm hstep hinbox hmore =>
    obtain ⟨-, rfl, -⟩ := Move.act.inj hm
    have hprogram : program sha1 kind (.peer a) (c.shared x.node) (.peer t) = some (s, p) := ht ▸ hstep
    obtain ⟨b, t', hb, rfl, htask⟩ := program_peer hprogram
    obtain rfl := SessionAction.peer.inj hb
    have hsends : (protocol sha1 kind).sends (.peer a) x.proc (.peer t') = sentBy a t t' := by
      rw [ht]
      rfl
    have hrelays : more = [] ∨ more = cancelledBy (.peer a) (.peer t) := by
      rw [← ht]
      exact hmore
    refine ⟨s, t', rest, more, htask, hinbox, hrelays, ?_⟩
    rw [← hsends]
    rfl
  | beside hm hk _ _ _ _ => exact absurd (Move.act.inj hm).1.symm hk

structure Steps (sha1 : Bytes → Bytes) (kind : StorageKind) (c c' : Net Session Proc Message)
    (a : PieceEngine.Action) (x y x' y' : End Proc Message) (t t' : Task) (more : List Message) :
    Prop where
  step : taskStep sha1 kind a (c.shared x.node) t = some (c'.shared x.node, t')
  far : c'.shared y.node = c.shared y.node
  here : x'.proc = .peer t'
  there : y'.proc = y.proc
  inbox : x.inbox = (takenBy (.peer a)).toList ++ x'.inbox
  outbox : y'.inbox = y.inbox ++ sentBy a t t' ++ more
  relayed : more = [] ∨ more = cancelledBy (.peer a) (.peer t)

theorem steps_of_move {x' y' : End Proc Message} (h : Between c e j x y) (hlinked : Linked c)
    (ht : x.proc = .peer t) (happ : apply (protocol sha1 kind) c (.act e (.peer a) via) = some c')
    (h' : Between c' e j x' y') : ∃ t' more, Steps sha1 kind c c' a x y x' y' t t' more := by
  obtain ⟨z, rest, s, p, hacted⟩ := apply_act happ
  obtain rfl := Option.some.inj (h.near.symm.trans hacted.at_end)
  obtain rfl := Option.some.inj (h'.near.symm.trans (hacted.getElem? h.near))
  obtain rfl := Option.some.inj (h'.far.symm.trans (hacted.getElem? h.far))
  obtain ⟨s₁, t', rest₁, more, hstep, hinbox, hmore, hlink⟩ :=
    near_acts (h.side hlinked hacted rfl) ht
  obtain ⟨hnear, hfar, hhere, hthere, hin, hout⟩ := Link.mk.inj hlink
  refine ⟨t', more, ?_, hfar, hhere, hthere, ?_, hout, hmore⟩
  · rw [hstep]
    exact congrArg (fun s => some (s, t')) hnear.symm
  · rw [hinbox]
    exact congrArg ((takenBy (.peer a)).toList ++ ·) hin.symm

theorem falls_near (h : Paired specs n c e j x y t u) (htorrent : Torrent specs size)
    (hknown : Known sha1 content specs size c) (honly : OnlyContent sha1 content specs)
    (hsound : ∀ k, Sound (c'.shared k)) (hok : Seeded n c (.act e (.peer a) via))
    (hadvances : advances a = true)
    (happ : apply (protocol sha1 kind) c (.act e (.peer a) via) = some c') :
    ∃ x' y' t', Paired specs n c' e j x' y' t' u ∧
      rank specs (c'.shared n) t' u x'.inbox y'.inbox < rank specs (c.shared n) t u x.inbox y.inbox := by
  obtain ⟨x', y', t₁, u₁, hpaired⟩ := h.move htorrent hknown hsound hok happ
  obtain ⟨t', more, hsteps⟩ := steps_of_move h.between hknown.linked h.here happ hpaired.between
  obtain rfl := Proc.peer.inj (hpaired.here.symm.trans hsteps.here)
  obtain rfl := Proc.peer.inj (hpaired.there.symm.trans (hsteps.there.trans h.there))
  refine ⟨x', y', _, hpaired, ?_⟩
  have hmember := hknown.swarm.procs e x h.between.near
  have hproc := hmember.ok
  rw [h.here] at hproc
  have htaken : ∀ m, takenBy (.peer a) = some m → m ∈ x.inbox := by
    intro m hm
    rw [hsteps.inbox, hm]
    exact List.mem_append_left _ (List.mem_singleton_self m)
  have hfine := Partner.no_failure (hmember.partner t _ h.here h.between.remote) hproc honly
    fun m hm => hknown.swarm.inboxes e x h.between.near m (htaken m hm) _ h.between.remote
  have hstep := hsteps.step
  have hwritten := hmember.written t h.here
  rw [h.node] at hstep hwritten
  rw [hsteps.inbox, hsteps.outbox]
  exact rank_near hadvances hproc hwritten (hknown.point h.between.near h.here h.live.1) hfine
    hpaired.live.1 hstep hsteps.relayed

theorem falls_far (h : Paired specs n c e j x y t u) (htorrent : Torrent specs size)
    (hknown : Known sha1 content specs size c) (honly : OnlyContent sha1 content specs)
    (hsound : ∀ k, Sound (c'.shared k)) (hok : Seeded n c (.act j (.peer a) via))
    (hadvances : advances a = true)
    (happ : apply (protocol sha1 kind) c (.act j (.peer a) via) = some c') :
    ∃ x' y' u', Paired specs n c' e j x' y' t u' ∧ u'.amChoking = u.amChoking ∧
      rank specs (c'.shared n) t u' x'.inbox y'.inbox < rank specs (c.shared n) t u x.inbox y.inbox := by
  obtain ⟨x', y', t₁, u₁, hpaired⟩ := h.move htorrent hknown hsound hok happ
  obtain ⟨u', more, hsteps⟩ :=
    steps_of_move h.between.symm hknown.linked h.there happ hpaired.between.symm
  obtain rfl := Proc.peer.inj (hpaired.there.symm.trans hsteps.here)
  obtain rfl := Proc.peer.inj (hpaired.here.symm.trans (hsteps.there.trans h.here))
  have hchoking := amChoking_after (worked_of_step hsteps.step) (advances_not_rechokes hadvances)
  refine ⟨x', y', _, hpaired, hchoking, ?_⟩
  have hmember := hknown.swarm.procs j y h.between.far
  have hproc := hmember.ok
  rw [h.there] at hproc
  have htaken : ∀ m, takenBy (.peer a) = some m → m ∈ y.inbox := by
    intro m hm
    rw [hsteps.inbox, hm]
    exact List.mem_append_left _ (List.mem_singleton_self m)
  have hremote := h.between.symm.remote
  have hfine := Partner.no_failure (hmember.partner u _ h.there hremote) hproc honly
    fun m hm => hknown.swarm.inboxes j y h.between.far m (htaken m hm) _ hremote
  have hseeding := h.leeching.seeding
  have hcomplete := (isComplete_iff (hknown.orderly.nodes _)
    (hknown.swarm.nodes y.node).specs_eq).mpr hseeding.full
  have hsame : c'.shared n = c.shared n := h.node ▸ hsteps.far
  rw [hsteps.inbox, hsteps.outbox, hsame]
  exact rank_far hadvances hseeding hcomplete (hknown.point h.between.far h.there h.live.2) hfine
    hpaired.live.2 hsteps.step hsteps.relayed

structure Ranked (ok : Net Session Proc Message → Prop) (specs : List PieceSpec) (n e j : ℕ)
    (c : Net Session Proc Message) (m : ℕ ×ₗ ℕ ×ₗ ℕ) : Prop where
  reached : ok c
  paired : ∃ x y t u, Paired specs n c e j x y t u ∧ u.amChoking = false ∧
    m = rank specs (c.shared n) t u x.inbox y.inbox

theorem seeded_of_advances (h : advances a = true) (n : ℕ) (c : Net Session Proc Message) (k via : ℕ) :
    Seeded n c (.act k (.peer a) via) := by
  intro _ _ _ _ _
  constructor
  · rintro rfl
    cases h
  · rintro rfl
    cases h

section
variable {pieceLength totalLength : ℤ} {raw : Bytes} {tr : Tracker} {storage : ℕ → Bytes}

/-- In a swarm where a client is connected to a seed only: from every state that is reached in which
the seed does not choke it, whatever has happened before, the two tasks go on in any order until the
client has every piece, and it gets every piece. -/
theorem downloads_complete (h1 : 1 ≤ pieceLength) (h32 : pieceLength ≤ 2 ^ 32) (h0 : 0 ≤ totalLength)
    (htr : init pieceLength totalLength raw = some tr) (hfew : tr.pieceCount < 2 ^ 32)
    (hsize : ∀ n, (storage n).length = totalLength.toNat) (honly : OnlyContent sha1 content tr.specs)
    (hreach : Reach (protocol sha1 kind) (fun c m => Wired c m ∧ Seeded n c m) (swarm tr storage) c)
    (hx : c.ends[e]? = some x) (hnode : x.node = n) (ht : x.proc = .peer t)
    (hj : x.partner = some j) (hy : c.ends[j]? = some y) (hu : y.proc = .peer u)
    (hfree : u.amChoking = false) :
    Inevitable (Advances sha1 kind e j) (fun c => (c.shared n).tracker.isComplete) c := by
  have htorrent : Torrent tr.specs totalLength.toNat :=
    ⟨init_tiles htr, fun i spec hat => init_index htr hat,
      fun i spec hat => init_positive h1 h0 htr hat⟩
  have hpaired := paired_of_reach h1 h32 h0 htr hfew hsize honly hreach hx hnode ht hj hy hu
  refine Inevitable.of_rank (Ranked (Reach (protocol sha1 kind) (fun c m => Wired c m ∧ Seeded n c m)
    (swarm tr storage)) tr.specs n e j) ?_ ?_ ⟨hreach, x, y, t, u, hpaired, hfree, rfl⟩
  · rintro c m ⟨hreach, x, y, t, u, hpaired, hfree, -⟩
    have hknown := known_of_reach h1 h32 h0 htr hfew hsize honly hreach
    by_contra hno
    obtain ⟨hincomplete, hstuck⟩ := not_or.mp hno
    have hrests : ∀ k, k = e ∨ k = j → AtRest sha1 kind c k := by
      intro k hk a via hadvances hjoining
      by_contra hsome
      obtain ⟨c', happ⟩ := Option.ne_none_iff_exists'.mp hsome
      exact hstuck ⟨c', k, a, via, hk, hadvances, hjoining, happ⟩
    have hstops := hpaired.at_rest hknown (hrests e (Or.inl rfl)) (hrests j (Or.inr rfl))
    rw [hpaired.node] at hstops
    rcases hstops with hcomplete | ⟨hchokes, -⟩
    · exact hincomplete hcomplete
    · cases hfree.symm.trans hchokes
  · rintro c m c' ⟨hreach, x, y, t, u, hpaired, hfree, rfl⟩ - ⟨k, a, via, hk, hadvances, hjoining, happ⟩
    have hknown := known_of_reach h1 h32 h0 htr hfew hsize honly hreach
    have hseeded := seeded_of_advances hadvances n c k via
    have hwired : Wired c (.act k (.peer a) via) := hjoining
    have hreach' := hreach.next _ ⟨hwired, hseeded⟩ happ
    have hknown' := known_of_reach h1 h32 h0 htr hfew hsize honly hreach'
    rcases hk with rfl | rfl
    · obtain ⟨x', y', t', hpaired', hlt⟩ := falls_near hpaired htorrent hknown honly
        hknown'.orderly.nodes hseeded hadvances happ
      exact ⟨_, hlt, hreach', x', y', t', u, hpaired', hfree, rfl⟩
    · obtain ⟨x', y', u', hpaired', hchoking, hlt⟩ := falls_far hpaired htorrent hknown honly
        hknown'.orderly.nodes hseeded hadvances happ
      exact ⟨_, hlt, hreach', x', y', t, u', hpaired', hchoking.trans hfree, rfl⟩

def unchoking : FifoNetworks.Move Proc SessionAction Message := .act 1 (.peer (.rechokes false)) 0

def HeardInterest (c : Net Session Proc Message) (e : ℕ) : Bool :=
  match c.ends[e]? with
  | some ⟨_, _, .peer t, _⟩ => .received .interested true ∈ t.log
  | _ => false

theorem wanted_of_heard {c : Net Session Proc Message} {e : ℕ} {x : End Proc Message} {t : Task}
    (h : HeardInterest c e = true) (hx : c.ends[e]? = some x) (ht : x.proc = .peer t) :
    Wanted a t := by
  intro _
  unfold HeardInterest at h
  split at h
  · next u inbox hu =>
    obtain rfl := Option.some.inj (hx.symm.trans hu)
    obtain rfl := Proc.peer.inj ht
    exact ⟨true, of_decide_eq_true h⟩
  · cases h

/-- The two ends of a connection where the far one does not choke. -/
def Unchoked (c : Net Session Proc Message) (e j n : ℕ) : Bool :=
  match c.ends[e]?, c.ends[j]? with
  | some ⟨k, some l, .peer _, _⟩, some ⟨_, _, .peer u, _⟩ => k = n ∧ l = j ∧ u.amChoking = false
  | _, _ => false

theorem Unchoked.ends {c : Net Session Proc Message} {e j n : ℕ} (h : Unchoked c e j n = true) :
    ∃ x y t u, c.ends[e]? = some x ∧ x.node = n ∧ x.proc = .peer t ∧ x.partner = some j ∧
      c.ends[j]? = some y ∧ y.proc = .peer u ∧ u.amChoking = false := by
  unfold Unchoked at h
  split at h
  · next k l t inbox k' o u inbox' hx hy =>
    obtain ⟨hk, hl, hfree⟩ := of_decide_eq_true h
    exact ⟨_, _, t, u, hx, hk, rfl, congrArg some hl, hy, rfl, hfree⟩
  · cases h

theorem downloads_complete_unchoked :
    ∃ tr c₀ c₁ c₂ c, init 20 20 (List.replicate 20 7) = some tr ∧
      run (protocol id .files) (swarm tr disks) seeding = some c₀ ∧
      apply (protocol id .files) c₀ joins = some c₁ ∧
      run (protocol id .files) c₁ introducing = some c₂ ∧
      apply (protocol id .files) c₂ unchoking = some c ∧ ¬ (c.shared 1).tracker.isComplete ∧
      Inevitable (Advances id .files 2 1) (fun c => (c.shared 1).tracker.isComplete) c := by
  obtain ⟨tr, htr⟩ : ∃ tr, init 20 20 (List.replicate 20 7) = some tr := ⟨_, rfl⟩
  have hgoes : (run (protocol id .files) (swarm tr disks) seeding).any (fun c₀ =>
      decide (c₀.ends.all fun z => z.node ≠ 1) && decide ((c₀.shared 0).tracker.isComplete) &&
        (apply (protocol id .files) c₀ joins).any fun c₁ =>
          (run (protocol id .files) c₁ introducing).any fun c₂ => HeardInterest c₂ 1 &&
            (apply (protocol id .files) c₂ unchoking).any fun c =>
              decide (¬ (c.shared 1).tracker.isComplete) && Unchoked c 2 1 1) = true := by
    obtain rfl := Option.some.inj htr
    decide +kernel
  have hcount : tr.pieceCount < 2 ^ 32 := by
    obtain rfl := Option.some.inj htr
    decide
  obtain ⟨c₀, hrun, hgoes⟩ := (Option.any_eq_true _ _).mp hgoes
  obtain ⟨hready, hgoes⟩ := Bool.and_eq_true_iff.mp hgoes
  obtain ⟨halone, hcomplete⟩ := Bool.and_eq_true_iff.mp hready
  obtain ⟨c₁, happ, hgoes⟩ := (Option.any_eq_true _ _).mp hgoes
  obtain ⟨c₂, hrun', hgoes⟩ := (Option.any_eq_true _ _).mp hgoes
  obtain ⟨hheard, hgoes⟩ := Bool.and_eq_true_iff.mp hgoes
  obtain ⟨c, happ', hgoes⟩ := (Option.any_eq_true _ _).mp hgoes
  obtain ⟨hlacks, hunchoked⟩ := Bool.and_eq_true_iff.mp hgoes
  have hreach₂ := reach_introduced hrun (of_decide_eq_true halone) (of_decide_eq_true hcomplete) happ
    hrun'
  have hseeded : Seeded 1 c₂ unchoking := by
    intro x t hx ht _
    constructor
    · intro hno
      cases hno
    · exact wanted_of_heard hheard hx ht
  have hwired : Wired c₂ unchoking := trivial
  obtain ⟨x, y, t, u, hx, hnode, ht, hj, hy, hu, hfree⟩ := Unchoked.ends hunchoked
  exact ⟨tr, c₀, c₁, c₂, c, htr, hrun, happ, hrun', happ', of_decide_eq_true hlacks,
    downloads_complete (by decide) (by decide) (by decide) htr hcount (fun n => List.length_replicate)
      (one_piece htr) (hreach₂.next unchoking ⟨hwired, hseeded⟩ happ') hx hnode ht hj hy hu hfree⟩

end

end SeededDownloads
