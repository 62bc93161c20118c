import Aiobt.NetworkLinks
import Aiobt.SessionControl
import Aiobt.LeechingPairs

/-! # A client whose only peer is a seed

A client of a swarm is connected once, to a client that has every piece. Whatever the order of the
steps at either of them and in the rest of the swarm, its download only ever waits for being
unchoked. -/
namespace SeededClients

open ByteStrings PieceTracker PeerMessages PieceEngine SessionTasks EngineTurns BlockTransfer
open VerifiedPieces TransferTurns WireFraming PeerExceptions FifoNetworks NetworkLinks Swarms
open SwarmProgress SeedSteps LeechingPairs

variable {sha1 : Bytes → Bytes} {kind : StorageKind} {content : ℕ → Bytes} {specs : List PieceSpec}
  {size n : ℕ} {a : PieceEngine.Action} {s s' r r' : Session} {t t' u u' : Task} {msg : Message}
  {c c' : Net Session Proc Message} {e j : ℕ} {x x' y y' : End Proc Message}
  {m : FifoNetworks.Move Proc SessionAction Message}

def Alone (n : ℕ) (c : Net Session Proc Message) : Prop :=
  ∀ (k : ℕ) (z : End Proc Message), c.ends[k]? = some z → z.node = n → ∃ st, z.proc = .starter st

def Begins (p : Proc) : Prop := ∃ addr given, p = .peer (newTask addr given (some newRates))

def Concerns (n : ℕ) (c : Net Session Proc Message) (x : End Proc Message) : Prop :=
  x.node = n ∨ ∃ j y, x.partner = some j ∧ c.ends[j]? = some y ∧ y.node = n

/-- The node has one connection, to a seed. It does not fail, and the choking managers at either end
unchoke a peer only when they have heard of its interest. -/
def Seeded (n : ℕ) (c : Net Session Proc Message) :
    FifoNetworks.Move Proc SessionAction Message → Prop
  | .connect i k p q => i = n ∨ k = n → Alone n c ∧ i ≠ k ∧ Begins p ∧ Begins q ∧
    (c.shared (if i = n then k else i)).tracker.isComplete
  | .accept i p => i = n → ∃ st, p = .starter st
  | .hears _ _ => True
  | .act e (.peer a) _ => ∀ x t, c.ends[e]? = some x → x.proc = .peer t → Concerns n c x →
    a ≠ .raises ∧ Wanted a t
  | .act _ (.start _) _ => True

structure Paired (specs : List PieceSpec) (n : ℕ) (c : Net Session Proc Message) (e j : ℕ)
    (x y : End Proc Message) (t u : Task) : Prop where
  between : Between c e j x y
  node : x.node = n
  here : x.proc = .peer t
  there : y.proc = .peer u
  live : Live t ∧ Live u
  others : ∀ (k : ℕ) (z : End Proc Message), c.ends[k]? = some z → z.node = n → k ≠ e →
    ∃ st, z.proc = .starter st
  leeching : Leeching specs (c.shared n) (c.shared y.node) t u x.inbox y.inbox

def Tended (specs : List PieceSpec) (n : ℕ) (c : Net Session Proc Message) : Prop :=
  Alone n c ∧ (c.shared n).tracker.pending = ∅ ∨ ∃ e j x y t u, Paired specs n c e j x y t u

theorem start_tracker {b : StartAction} {st st' : Starter}
    (hstep : startStep sha1 b s st = some (s', st')) :
    s'.tracker = s.tracker ∨ ∃ idx, s'.tracker = s.tracker.markHave idx := by
  cases startTurn_of_step hstep with
  | ends hs => exact Or.inl (by rw [hs])
  | checks _ heq =>
    obtain rfl := congrArg Prod.fst heq
    exact Or.inl (SessionControl.checkResume_tracker s st)
  | scans todo _ heq =>
    obtain rfl := congrArg Prod.fst heq
    exact Or.inl (SessionControl.scanFrom_tracker s st todo)
  | marks _ _ heq =>
    obtain rfl := congrArg Prod.fst heq
    exact Or.inr ⟨_, SessionControl.scanFrom_tracker _ st _⟩
  | fetches _ _ hs => exact Or.inl (by rw [hs])

theorem start_pending {b : StartAction} {st st' : Starter}
    (hstep : startStep sha1 b s st = some (s', st')) : s'.tracker.pending ⊆ s.tracker.pending := by
  rcases start_tracker hstep with heq | ⟨idx, heq⟩
  · rw [heq]
  · rw [heq]
    exact Finset.erase_subset _ _

theorem start_specs {b : StartAction} {st st' : Starter}
    (hstep : startStep sha1 b s st = some (s', st')) : s'.tracker.specs = s.tracker.specs := by
  rcases start_tracker hstep with heq | ⟨idx, heq⟩
  · rw [heq]
  · rw [heq, Tracker.markHave_specs]

theorem program_starters {b : SessionAction} {p p' : Proc} (h : program sha1 kind b s p = some (s', p')) :
    (∃ st, p = .starter st) ↔ ∃ st, p' = .starter st := by
  cases p with
  | peer t =>
    obtain ⟨-, t', -, rfl, -⟩ := program_peer h
    simp
  | starter st =>
    obtain ⟨-, st', -, rfl, -⟩ := program_starter h
    simp

/-- Where no task of a peer is started, the calls of `start` at the node stay. -/
theorem starters_move (happ : apply (protocol sha1 kind) c m = some c') {k : ℕ}
    (hbefore : ∀ z, c.ends[k]? = some z → z.node = n → ∃ st, z.proc = .starter st)
    (hconnect : ∀ i l p q, m = .connect i l p q → i ≠ n ∧ l ≠ n)
    (haccept : ∀ i p, m = .accept i p → i = n → ∃ st, p = .starter st) {z : End Proc Message}
    (hz : c'.ends[k]? = some z) (hnode : z.node = n) : ∃ st, z.proc = .starter st := by
  cases m with
  | connect i l p q =>
    obtain ⟨hi, hl⟩ := hconnect i l p q rfl
    obtain rfl := apply_connect happ
    rcases getElem?_append_cases hz with hold | ⟨d, -, hd⟩
    · exact hbefore z hold hnode
    · rcases newEnds_cases hd with ⟨-, rfl⟩ | ⟨-, rfl⟩
      · exact absurd hnode hi
      · exact absurd hnode hl
  | accept i p =>
    obtain rfl := apply_accept happ
    rcases getElem?_append_cases hz with hold | ⟨d, -, hd⟩
    · exact hbefore z hold hnode
    · obtain rfl := List.mem_singleton.mp (List.mem_of_getElem? hd)
      exact haccept i p rfl hnode
  | hears l msg =>
    obtain ⟨-, -, -, rfl⟩ := apply_hears happ
    rw [List.getElem?_mapIdx] at hz
    obtain ⟨w, hw, rfl⟩ := Option.map_eq_some_iff.mp hz
    obtain ⟨hsame, -, hproc⟩ := heard_links l msg k w
    rw [hproc]
    exact hbefore w hw (hsame ▸ hnode)
  | act l b via =>
    obtain ⟨w, rest, s₁, p, hacted⟩ := apply_act happ
    obtain ⟨z₀, hz₀, rfl⟩ := hacted.back hz
    have hold := hbefore z₀ hz₀ hnode
    by_cases hk : k = l
    · subst hk
      obtain rfl := Option.some.inj (hacted.at_end.symm.trans hz₀)
      have hproc : (acted (protocol sha1 kind) c k b via w rest p k w).proc = p := if_pos rfl
      rw [hproc]
      exact (program_starters hacted.step).mp hold
    · have hproc : (acted (protocol sha1 kind) c l b via w rest p k z₀).proc = z₀.proc := if_neg hk
      rw [hproc]
      exact hold

/-- What a node without tasks of peers has pending does not grow. -/
theorem alone_pending (halone : Alone n c) (happ : apply (protocol sha1 kind) c m = some c') :
    (c'.shared n).tracker.pending ⊆ (c.shared n).tracker.pending := by
  cases m with
  | connect i k p q =>
    obtain rfl := apply_connect happ
    exact Finset.Subset.refl _
  | accept i p =>
    obtain rfl := apply_accept happ
    exact Finset.Subset.refl _
  | hears k msg =>
    obtain ⟨-, -, -, rfl⟩ := apply_hears happ
    exact Finset.Subset.refl _
  | act k b via =>
    obtain ⟨z, rest, s, p, hacted⟩ := apply_act happ
    rw [hacted.shared]
    by_cases hnode : z.node = n
    · subst hnode
      obtain ⟨st, hst⟩ := halone k z hacted.at_end rfl
      have hstep : program sha1 kind b (c.shared z.node) (.starter st) = some (s, p) := hst ▸ hacted.step
      obtain ⟨b, st', -, -, hstart⟩ := program_starter hstep
      rw [Function.update_self]
      exact start_pending hstart
    · rw [Function.update_of_ne (Ne.symm hnode)]

theorem cancels_of_relays {b : SessionAction} {p : Proc} {more : List Message}
    (h : more = [] ∨ more = (protocol sha1 kind).relays b p) : Cancels more := by
  intro msg hm
  have hcancelled : msg ∈ cancelledBy b p := by
    rcases h with rfl | rfl
    · cases hm
    · exact hm
  cases p with
  | peer t =>
    obtain ⟨index, spec, addrs, offset, left, -, rfl⟩ := mem_cancelledBy hcancelled
    exact ⟨_, _, _, rfl⟩
  | starter st =>
    unfold cancelledBy at hcancelled
    split at hcancelled
    · next heq => cases heq
    · cases hcancelled

theorem cancels_nil : Cancels [] := fun _ hm => absurd hm List.not_mem_nil

theorem program_got {b : SessionAction} {p p' : Proc}
    (h : program sha1 kind b s p = some (s', p')) : s.tracker.got ⊆ s'.tracker.got := by
  cases p with
  | peer t =>
    obtain ⟨b, t', -, -, htask⟩ := program_peer h
    exact (turn_of_step htask).got_subset
  | starter st =>
    obtain ⟨b, st', -, -, hstart⟩ := program_starter h
    exact start_got_subset hstart

structure Known (sha1 : Bytes → Bytes) (content : ℕ → Bytes) (specs : List PieceSpec) (size : ℕ)
    (c : Net Session Proc Message) : Prop where
  linked : Linked c
  swarm : Holds (Verified sha1 content specs size) (Member sha1 content specs)
    (InFlight sha1 content specs) c
  orderly : Holds Sound (fun _ _ => Running specs) (fun _ _ => Fits) c

structure Torrent (specs : List PieceSpec) (size : ℕ) : Prop where
  tiles : Tiles specs size
  index : ∀ (i : ℕ) (spec : PieceSpec), specs[i]? = some spec → spec.index = i
  positive : ∀ (i : ℕ) (spec : PieceSpec), specs[i]? = some spec → 0 < spec.length

section
variable {v w : Link Session Proc Message}

theorem Paired.near_side (h : Paired specs n c e j x y t u) (htorrent : Torrent specs size)
    (hknown : Known sha1 content specs size c) (hok : Seeded n c m) (hs' : Sound w.near)
    (hside : Side (protocol sha1 kind) c e x m (link c x y) w) :
    ∃ t', w.here = .peer t' ∧ w.there = .peer u ∧ Live t' ∧
      Leeching specs w.near w.far t' u w.inbox w.outbox := by
  obtain ⟨hbetween, rfl, hhere, hthere, hlive, hothers, hleeching⟩ := h
  have hs := hknown.orderly.nodes x.node
  have hgood := hknown.swarm.nodes x.node
  cases hside with
  | @acts b via rest s p more hm hstep hin hmore =>
    have hprogram : program sha1 kind b (c.shared x.node) (.peer t) = some (s, p) := hhere ▸ hstep
    obtain ⟨a, t', rfl, rfl, htask⟩ := program_peer hprogram
    subst hm
    have hmember := hknown.swarm.procs e x hbetween.near
    have hproc := hmember.ok
    have hpartner := hmember.partner t _ hhere hbetween.remote
    rw [hhere] at hproc
    have hinbox : x.inbox = (takenBy (.peer a)).toList ++ rest := hin
    have htaken : ∀ m, takenBy (.peer a) = some m → m ∈ x.inbox := by
      intro m hm
      rw [hinbox, hm]
      exact List.mem_append_left _ (List.mem_singleton_self m)
    have hraises := (hok x t hbetween.near hhere (Or.inl rfl)).1
    have hsmooth := smooth_of_acts htorrent.tiles hknown.swarm hknown.orderly hbetween.near
      hbetween.remote hhere hlive.1 hraises htaken htask
    have hlive' := live_of_smooth hsmooth
    rw [hinbox] at hleeching
    have hnear := hleeching.near hs hs' hgood hproc hpartner.asking
      (hmember.written t hhere) htorrent.index htorrent.positive hlive' htask
    have hrelayed := hnear.relayed cancels_nil (cancels_of_relays hmore)
    rw [List.append_nil] at hrelayed
    have hsends : (protocol sha1 kind).sends (.peer a) (link c x y).here (.peer t') = sentBy a t t' := by
      show sentByProc (.peer a) x.proc (.peer t') = _
      rw [hhere]
      rfl
    refine ⟨t', rfl, hthere, hlive', ?_⟩
    show Leeching specs s (c.shared y.node) t' u rest (y.inbox ++ _ ++ more)
    rw [hsends]
    exact hrelayed
  | @beside k b via z s p more hm hk hz hnode hstep hmore =>
    obtain ⟨st, hst⟩ := hothers k z hz hnode hk
    have hprogram : program sha1 kind b (c.shared x.node) (.starter st) = some (s, p) := hst ▸ hstep
    obtain ⟨b, st', rfl, rfl, hstart⟩ := program_starter hprogram
    have hgrows := isComplete_mono hs hs' (start_specs hstart) (start_got_subset hstart)
    have hsession := hleeching.session (start_pending hstart) hgrows (Finset.Subset.refl _)
    have hrelayed := hsession.relayed cancels_nil (cancels_of_relays hmore)
    rw [List.append_nil] at hrelayed
    exact ⟨t, hhere, hthere, hlive.1, hrelayed⟩

theorem Paired.far_side (h : Paired specs n c e j x y t u) (htorrent : Torrent specs size)
    (hknown : Known sha1 content specs size c) (hok : Seeded n c m)
    (hside : Side (protocol sha1 kind) c j y m (link c y x) w) :
    ∃ u', w.here = .peer u' ∧ w.there = .peer t ∧ Live u' ∧
      Leeching specs w.far w.near t u' w.outbox w.inbox := by
  obtain ⟨hbetween, rfl, hhere, hthere, hlive, hothers, hleeching⟩ := h
  have hr := hknown.orderly.nodes y.node
  have hgood := hknown.swarm.nodes y.node
  cases hside with
  | @acts b via rest s p more hm hstep hin hmore =>
    have hprogram : program sha1 kind b (c.shared y.node) (.peer u) = some (s, p) := hthere ▸ hstep
    obtain ⟨a, u', rfl, rfl, htask⟩ := program_peer hprogram
    subst hm
    have hproc := (hknown.swarm.procs e x hbetween.near).ok
    rw [hhere] at hproc
    have hinbox : y.inbox = (takenBy (.peer a)).toList ++ rest := hin
    have htaken : ∀ m, takenBy (.peer a) = some m → m ∈ y.inbox := by
      intro m hm
      rw [hinbox, hm]
      exact List.mem_append_left _ (List.mem_singleton_self m)
    obtain ⟨hraises, hwanted⟩ :=
      hok y u hbetween.far hthere (Or.inr ⟨e, x, hbetween.to_near, hbetween.near, rfl⟩)
    have hsmooth := smooth_of_acts htorrent.tiles hknown.swarm hknown.orderly hbetween.far
      hbetween.symm.remote hthere hlive.2 hraises htaken htask
    have hlive' := live_of_smooth hsmooth
    rw [hinbox] at hleeching
    have hfar := hleeching.far hr hgood.specs_eq hproc hwanted hlive' htask
    have hrelayed := hfar.relayed (cancels_of_relays hmore) cancels_nil
    rw [List.append_nil] at hrelayed
    have hsends : (protocol sha1 kind).sends (.peer a) (link c y x).here (.peer u') = sentBy a u u' := by
      show sentByProc (.peer a) y.proc (.peer u') = _
      rw [hthere]
      rfl
    refine ⟨u', rfl, hhere, hlive', ?_⟩
    show Leeching specs (c.shared x.node) s t u' (x.inbox ++ _ ++ more) rest
    rw [hsends]
    exact hrelayed
  | @beside k b via z s p more hm hk hz hnode hstep hmore =>
    have hsession := hleeching.session (Finset.Subset.refl _) id (program_got hstep)
    have hrelayed := hsession.relayed (cancels_of_relays hmore) cancels_nil
    rw [List.append_nil] at hrelayed
    exact ⟨u, hthere, hhere, hlive.2, hrelayed⟩

end

theorem Paired.move (h : Paired specs n c e j x y t u) (htorrent : Torrent specs size)
    (hknown : Known sha1 content specs size c) (hsound : ∀ k, Sound (c'.shared k))
    (hok : Seeded n c m) (happ : apply (protocol sha1 kind) c m = some c') :
    ∃ x' y' t' u', Paired specs n c' e j x' y' t' u' := by
  have hbusy : ¬ Alone n c := by
    intro halone
    obtain ⟨st, hst⟩ := halone e x h.between.near h.node
    cases h.here.symm.trans hst
  have hothers : ∀ (k : ℕ) (z : End Proc Message), c'.ends[k]? = some z → z.node = n → k ≠ e →
      ∃ st, z.proc = .starter st := by
    intro k z hz hnode hk
    refine starters_move happ (fun z hz hnode => h.others k z hz hnode hk) ?_ ?_ hz hnode
    · rintro i l p q rfl
      constructor
      · exact fun hi => hbusy (hok (Or.inl hi)).1
      · exact fun hl => hbusy (hok (Or.inr hl)).1
    · rintro i p rfl
      exact hok
  obtain ⟨x', y', hbetween, hx, hy, hcases⟩ := h.between.move hknown.linked happ
  rcases hcases with hside | hside | hsame
  · obtain ⟨t', hhere, hthere, hlive, hleeching⟩ := h.near_side htorrent hknown hok (hsound _) hside
    refine ⟨x', y', t', u, hbetween, hx.trans h.node, hhere, hthere, ⟨hlive, h.live.2⟩, hothers, ?_⟩
    have hnode : x'.node = n := hx.trans h.node
    rw [← hnode]
    exact hleeching
  · obtain ⟨u', hthere, hhere, hlive, hleeching⟩ := h.far_side htorrent hknown hok hside
    refine ⟨x', y', t, u', hbetween, hx.trans h.node, hhere, hthere, ⟨h.live.1, hlive⟩, hothers, ?_⟩
    have hnode : x'.node = n := hx.trans h.node
    rw [← hnode]
    exact hleeching
  · obtain ⟨hnear, hfar, hhere, hthere, hinbox, houtbox⟩ := Link.mk.inj hsame
    refine ⟨x', y', t, u, hbetween, hx.trans h.node, hhere.trans h.here, hthere.trans h.there, h.live,
      hothers, ?_⟩
    have hnode : x'.node = n := hx.trans h.node
    rw [← hnode, hnear, hfar, hinbox, houtbox, h.node]
    exact h.leeching

theorem paired_start {i k : ℕ} {p q : Proc} (hknown : Known sha1 content specs size c)
    (hpending : (c.shared n).tracker.pending = ∅)
    (hok : Seeded n c (.connect i k p q)) (hnode : i = n ∨ k = n)
    (happ : apply (protocol sha1 kind) c (.connect i k p q) = some c') :
    ∃ e j x y t u, Paired specs n c' e j x y t u := by
  obtain ⟨halone, hne, ⟨addr, given, rfl⟩, ⟨addr', given', rfl⟩, hcomplete⟩ := hok hnode
  obtain rfl := apply_connect happ
  have hspecs := (hknown.swarm.nodes n).specs_eq
  have hfull : ∀ {l}, (c.shared l).tracker.isComplete → Full specs (c.shared l).tracker.got :=
    fun hc => (isComplete_iff (hknown.orderly.nodes _) (hknown.swarm.nodes _).specs_eq).mp hc
  have hlive : ∀ addr given, Live (newTask addr given (some newRates)) := fun addr given hgone => by
    cases hgone
  have hfirst : (c.ends ++ newEnds c i k (.peer (newTask addr given (some newRates)))
      (.peer (newTask addr' given' (some newRates))))[c.ends.length]? =
        some ⟨i, some (c.ends.length + 1), .peer (newTask addr given (some newRates)), []⟩ := by
    rw [List.getElem?_append_right (Nat.le_refl _), Nat.sub_self]
    rfl
  have hsecond : (c.ends ++ newEnds c i k (.peer (newTask addr given (some newRates)))
      (.peer (newTask addr' given' (some newRates))))[c.ends.length + 1]? =
        some ⟨k, some c.ends.length, .peer (newTask addr' given' (some newRates)), []⟩ := by
    rw [List.getElem?_append_right (by omega), Nat.add_sub_cancel_left]
    rfl
  have hothers : ∀ (l : ℕ) (z : End Proc Message), (c.ends ++ newEnds c i k
      (.peer (newTask addr given (some newRates))) (.peer (newTask addr' given' (some newRates))))[l]? =
        some z → z.node = n → l = c.ends.length ∧ i = n ∨ l = c.ends.length + 1 ∧ k = n ∨
          ∃ st, z.proc = .starter st := by
    intro l z hz hz'
    rcases getElem?_append_cases hz with hold | ⟨d, rfl, hd⟩
    · exact Or.inr (Or.inr (halone l z hold hz'))
    · rcases newEnds_cases hd with ⟨rfl, rfl⟩ | ⟨rfl, rfl⟩
      · exact Or.inl ⟨rfl, hz'⟩
      · exact Or.inr (Or.inl ⟨rfl, hz'⟩)
  by_cases hi : i = n
  · subst hi
    rw [if_pos rfl] at hcomplete
    refine ⟨_, _, _, _, _, _, ⟨hfirst, hsecond, rfl, rfl, hne⟩, rfl, rfl, rfl,
      ⟨hlive _ _, hlive _ _⟩, fun l z hz hz' hl => ?_, ?_⟩
    · rcases hothers l z hz hz' with ⟨heq, -⟩ | ⟨-, hk⟩ | hst
      · exact absurd heq hl
      · exact absurd hk.symm hne
      · exact hst
    · exact leeching_start (hknown.orderly.nodes _) hspecs _ _ _ _ _ (hfull hcomplete) hpending
  · obtain rfl : k = n := hnode.resolve_left hi
    rw [if_neg hi] at hcomplete
    refine ⟨_, _, _, _, _, _, ⟨hsecond, hfirst, rfl, rfl, hne.symm⟩, rfl, rfl, rfl,
      ⟨hlive _ _, hlive _ _⟩, fun l z hz hz' hl => ?_, ?_⟩
    · rcases hothers l z hz hz' with ⟨-, heq⟩ | ⟨heq, -⟩ | hst
      · exact absurd heq hi
      · exact absurd heq hl
      · exact hst
    · exact leeching_start (hknown.orderly.nodes _) hspecs _ _ _ _ _ (hfull hcomplete) hpending

theorem tended_move (h : Tended specs n c) (htorrent : Torrent specs size)
    (hknown : Known sha1 content specs size c) (hsound : ∀ k, Sound (c'.shared k))
    (hok : Seeded n c m) (happ : apply (protocol sha1 kind) c m = some c') : Tended specs n c' := by
  rcases h with ⟨halone, hpending⟩ | ⟨e, j, x, y, t, u, hpaired⟩
  · by_cases hconnect : ∃ i k p q, m = .connect i k p q ∧ (i = n ∨ k = n)
    · obtain ⟨i, k, p, q, rfl, hnode⟩ := hconnect
      exact Or.inr (paired_start hknown hpending hok hnode happ)
    · refine Or.inl ⟨fun k z hz hnode => ?_, ?_⟩
      · refine starters_move happ (fun z hz hnode => halone k z hz hnode) ?_ ?_ hz hnode
        · rintro i l p q rfl
          constructor
          · exact fun hi => hconnect ⟨i, l, p, q, rfl, Or.inl hi⟩
          · exact fun hl => hconnect ⟨i, l, p, q, rfl, Or.inr hl⟩
        · rintro i p rfl
          exact hok
      · have hsub := alone_pending halone happ
        rw [hpending] at hsub
        exact Finset.subset_empty.mp hsub
  · obtain ⟨x', y', t', u', hpaired'⟩ := hpaired.move htorrent hknown hsound hok happ
    exact Or.inr ⟨e, j, x', y', t', u', hpaired'⟩

/-- A task goes on by any action but failures, decisions about choking, and the single bytes of a
write, which may be stored any number of times. -/
def advances : PieceEngine.Action → Bool
  | .raises => false
  | .rechokes _ => false
  | .stores _ => false
  | _ => true

def AtRest (sha1 : Bytes → Bytes) (kind : StorageKind) (c : Net Session Proc Message) (e : ℕ) : Prop :=
  ∀ a via, advances a = true → Joining c (.act e (.peer a) via) →
    apply (protocol sha1 kind) c (.act e (.peer a) via) = none

/-- A task that does not wait for a message goes on. -/
theorem enabled (sha1 : Bytes → Bytes) (kind : StorageKind) (s : Session) (e : ℕ) (hlive : Live t)
    (hpoint : PointOk specs t.point) (hp : t.point ≠ .receive) :
    ∃ a, advances a = true ∧ (∀ c via, Joining c (.act e (.peer a) via)) ∧
      takenBy (.peer a) = none ∧ (taskStep sha1 kind a s t).isSome := by
  cases hwaits : t.point with
  | receive => exact absurd hwaits hp
  | ended =>
    rw [hwaits] at hpoint
    cases hpoint
  | disconnect =>
    refine absurd ?_ hlive
    rw [hwaits]
    rfl
  | starting =>
    refine ⟨.starts, rfl, fun c via => trivial, rfl, ?_⟩
    simp only [taskStep, hwaits]
    split
    · rfl
    · rfl
  | read index begin length offset data =>
    by_cases hover : fetchByte s.storage offset length data = none
    · refine ⟨.returns 0, rfl, fun c via => trivial, rfl, ?_⟩
      simp only [taskStep, resume, hwaits, hover, ne_eq, not_true_eq_false, if_false]
      split
      · rfl
      · rfl
    · obtain ⟨byte, hbyte⟩ := Option.ne_none_iff_exists'.mp hover
      refine ⟨.fetches, rfl, fun c via => trivial, rfl, ?_⟩
      simp [taskStep, hwaits, hbyte]
  | sendCancel index spec addrs offset left =>
    rw [hwaits] at hpoint
    obtain ⟨addr, haddr⟩ := Finset.nonempty_iff_ne_empty.mpr hpoint.2.2
    refine ⟨.cancels addr false 0, rfl, fun c via => trivial, rfl, ?_⟩
    simp only [taskStep, cancelStep, hwaits, if_pos haddr]
    split
    · rfl
    · rfl
  | _ => exact ⟨.returns 0, rfl, fun c via => trivial, rfl, by simp [taskStep, resume, hwaits]⟩

theorem moves_of_step {via : ℕ} {rest : List Message} (hx : c.ends[e]? = some x) (ht : x.proc = .peer t)
    (htaken : taken x.inbox (takenBy (.peer a)) = some rest)
    (hstep : (taskStep sha1 kind a (c.shared x.node) t).isSome) :
    apply (protocol sha1 kind) c (.act e (.peer a) via) ≠ none := by
  obtain ⟨⟨s', t'⟩, hstep⟩ := Option.isSome_iff_exists.mp hstep
  have hprogram : (protocol sha1 kind).step (.peer a) (c.shared x.node) x.proc =
      some (s', .peer t') := by
    rw [ht]
    show (taskStep sha1 kind a (c.shared x.node) t).map _ = _
    rw [hstep]
    rfl
  have htakes : taken x.inbox ((protocol sha1 kind).takes (.peer a)) = some rest := htaken
  simp [apply, hx, htakes, hprogram]

/-- A task rests when it waits for a message and none is on its way. -/
theorem atRest_iff (hx : c.ends[e]? = some x) (ht : x.proc = .peer t) (hlive : Live t)
    (hpoint : PointOk specs t.point) :
    AtRest sha1 kind c e ↔ t.point = .receive ∧ x.inbox = [] := by
  constructor
  · intro hrest
    have hp : t.point = .receive := by
      by_contra hp
      obtain ⟨a, hadvances, hjoining, htakes, hstep⟩ :=
        enabled sha1 kind (c.shared x.node) e hlive hpoint hp
      have htaken : taken x.inbox (takenBy (.peer a)) = some x.inbox := by rw [htakes]; rfl
      exact moves_of_step hx ht htaken hstep (hrest a 0 hadvances (hjoining c 0))
    refine ⟨hp, ?_⟩
    cases hinbox : x.inbox with
    | nil => rfl
    | cons msg rest =>
      have htaken : taken x.inbox (takenBy (.peer (.receives msg 0))) = some rest := by
        rw [hinbox]
        exact if_pos rfl
      have hstep : (taskStep sha1 kind (.receives msg 0) (c.shared x.node) t).isSome := by
        simp [taskStep, hp]
      exact absurd (hrest (.receives msg 0) 0 rfl trivial) (moves_of_step hx ht htaken hstep)
  · rintro ⟨hp, hinbox⟩ a via hadvances _
    rw [apply, hx]
    dsimp only
    cases a with
    | receives msg hint =>
      have htaken : taken x.inbox ((protocol sha1 kind).takes (.peer (.receives msg hint))) = none := by
        rw [hinbox]
        rfl
      rw [htaken]
    | raises => cases hadvances
    | rechokes amChoking => cases hadvances
    | stores k => cases hadvances
    | _ =>
      simp [protocol, program, ht, taskStep, resume, cancelStep, hp]

theorem Known.point (h : Known sha1 content specs size c) (hx : c.ends[e]? = some x)
    (ht : x.proc = .peer t) (hlive : Live t) : PointOk specs t.point := by
  refine (h.orderly.procs e x hx t ht).resolve_left fun hended => hlive ?_
  rw [hended]
  rfl

/-- When neither end can go on, the client has every piece or is choked. -/
theorem Paired.at_rest (h : Paired specs n c e j x y t u) (hknown : Known sha1 content specs size c)
    (hrest : AtRest sha1 kind c e) (hrest' : AtRest sha1 kind c j) :
    (c.shared x.node).tracker.isComplete ∨ u.amChoking = true ∧ interested u = true := by
  obtain ⟨hbetween, rfl, ht, hu, hlive, -, hleeching⟩ := h
  have hpoint := hknown.point hbetween.near ht hlive.1
  have hpoint' := hknown.point hbetween.far hu hlive.2
  obtain ⟨hp, hinbox⟩ := (atRest_iff hbetween.near ht hlive.1 hpoint).mp hrest
  obtain ⟨hq, houtbox⟩ := (atRest_iff hbetween.far hu hlive.2 hpoint').mp hrest'
  rw [hinbox, houtbox] at hleeching
  have hmember := hknown.swarm.procs e x hbetween.near
  have hok := hmember.ok
  rw [ht] at hok
  have hpartner := hmember.partner t _ ht hbetween.remote
  refine hleeching.at_rest hok (fun i spec hcur hat => ?_) hpartner.arrived hp hq
  obtain ⟨spec', hat', -, hlength, -⟩ :=
    (hknown.swarm.nodes y.node).stored i (hpartner.fetched i hcur)
  obtain rfl := Option.some.inj (hat.symm.trans hat')
  exact hlength

section
variable {pieceLength totalLength : ℤ} {raw : Bytes} {tr : Tracker} {storage : ℕ → Bytes}

theorem known_of_reach {n : ℕ} (h1 : 1 ≤ pieceLength) (h32 : pieceLength ≤ 2 ^ 32)
    (h0 : 0 ≤ totalLength) (htr : init pieceLength totalLength raw = some tr)
    (hfew : tr.pieceCount < 2 ^ 32) (hsize : ∀ n, (storage n).length = totalLength.toNat)
    (honly : OnlyContent sha1 content tr.specs)
    (hreach : Reach (protocol sha1 kind) (fun c m => Wired c m ∧ Seeded n c m) (swarm tr storage) c) :
    Known sha1 content tr.specs totalLength.toNat c := by
  have hwired := hreach.mono fun c m hok => hok.1
  exact ⟨hreach.linked, holds_of_reach htr hsize honly (hwired.mono joining_of_wired),
    orderly_of_reach h1 h32 h0 htr hfew hsize honly hwired⟩

theorem tended_of_reach (h1 : 1 ≤ pieceLength) (h32 : pieceLength ≤ 2 ^ 32) (h0 : 0 ≤ totalLength)
    (htr : init pieceLength totalLength raw = some tr) (hfew : tr.pieceCount < 2 ^ 32)
    (hsize : ∀ n, (storage n).length = totalLength.toNat) (honly : OnlyContent sha1 content tr.specs)
    (hreach : Reach (protocol sha1 kind) (fun c m => Wired c m ∧ Seeded n c m) (swarm tr storage) c) :
    Tended tr.specs n c := by
  have htorrent : Torrent tr.specs totalLength.toNat :=
    ⟨init_tiles htr, fun i spec hat => init_index htr hat,
      fun i spec hat => init_positive h1 h0 htr hat⟩
  induction hreach with
  | refl =>
    refine Or.inl ⟨fun k z hz => ?_, (specs_eq_of_init htr).2.2.2.2.1⟩
    cases hz
  | @next c c' m hreach hok happ ih =>
    have hknown := known_of_reach h1 h32 h0 htr hfew hsize honly hreach
    have hknown' := known_of_reach h1 h32 h0 htr hfew hsize honly (hreach.next m hok happ)
    exact tended_move ih htorrent hknown hknown'.orderly.nodes hok.2 happ

/-- A client that has a task of a peer is connected to its seed. -/
theorem paired_of_reach (h1 : 1 ≤ pieceLength) (h32 : pieceLength ≤ 2 ^ 32) (h0 : 0 ≤ totalLength)
    (htr : init pieceLength totalLength raw = some tr) (hfew : tr.pieceCount < 2 ^ 32)
    (hsize : ∀ n, (storage n).length = totalLength.toNat) (honly : OnlyContent sha1 content tr.specs)
    (hreach : Reach (protocol sha1 kind) (fun c m => Wired c m ∧ Seeded n c m) (swarm tr storage) c)
    (hx : c.ends[e]? = some x) (hnode : x.node = n) (ht : x.proc = .peer t)
    (hj : x.partner = some j) (hy : c.ends[j]? = some y) (hu : y.proc = .peer u) :
    Paired tr.specs n c e j x y t u := by
  rcases tended_of_reach h1 h32 h0 htr hfew hsize honly hreach with
    ⟨halone, -⟩ | ⟨e₁, j₁, x₁, y₁, t₁, u₁, hpaired⟩
  · obtain ⟨st, hst⟩ := halone e x hx hnode
    cases ht.symm.trans hst
  · obtain rfl : e = e₁ := by
      by_contra hne
      obtain ⟨st, hst⟩ := hpaired.others e x hx hnode hne
      cases ht.symm.trans hst
    obtain rfl := Option.some.inj (hx.symm.trans hpaired.between.near)
    obtain rfl := Option.some.inj (hj.symm.trans hpaired.between.to_far)
    obtain rfl := Option.some.inj (hy.symm.trans hpaired.between.far)
    obtain rfl := Proc.peer.inj (ht.symm.trans hpaired.here)
    obtain rfl := Proc.peer.inj (hu.symm.trans hpaired.there)
    exact hpaired

/-- In a swarm where a client is connected to a seed only, and whatever the other clients and the
strangers do: when neither end of the connection can go on, the client has every piece, or it is
choked by a seed that knows of its interest. -/
theorem only_choking_stops (h1 : 1 ≤ pieceLength) (h32 : pieceLength ≤ 2 ^ 32) (h0 : 0 ≤ totalLength)
    (htr : init pieceLength totalLength raw = some tr) (hfew : tr.pieceCount < 2 ^ 32)
    (hsize : ∀ n, (storage n).length = totalLength.toNat) (honly : OnlyContent sha1 content tr.specs)
    (hreach : Reach (protocol sha1 kind) (fun c m => Wired c m ∧ Seeded n c m) (swarm tr storage) c)
    (hx : c.ends[e]? = some x) (hnode : x.node = n) (ht : x.proc = .peer t)
    (hj : x.partner = some j) (hy : c.ends[j]? = some y) (hu : y.proc = .peer u)
    (hrest : AtRest sha1 kind c e) (hrest' : AtRest sha1 kind c j) :
    (c.shared n).tracker.isComplete ∨ u.amChoking = true ∧ interested u = true := by
  have hpaired := paired_of_reach h1 h32 h0 htr hfew hsize honly hreach hx hnode ht hj hy hu
  have hknown := known_of_reach h1 h32 h0 htr hfew hsize honly hreach
  rw [← hnode]
  exact hpaired.at_rest hknown hrest hrest'

def seeding : List (FifoNetworks.Move Proc SessionAction Message) :=
  [.accept 0 (.starter ⟨∅, 0, .starting⟩), .act 0 (.start .starts) 0, .act 0 (.start .returns) 0] ++
    List.replicate 20 (.act 0 (.start .fetches) 0) ++ [.act 0 (.start .returns) 0]

def joins : FifoNetworks.Move Proc SessionAction Message :=
  .connect 0 1 (.peer (newTask ⟨[2], 6881⟩ true (some newRates)))
    (.peer (newTask ⟨[1], 6881⟩ true (some newRates)))

def introducing : List (FifoNetworks.Move Proc SessionAction Message) :=
  [.act 1 (.peer .starts) 0, .act 1 (.peer (.returns 0)) 0, .act 2 (.peer .starts) 0,
    .act 2 (.peer (.returns 0)) 0, .act 2 (.peer (.receives (.bitfield [128]) 0)) 0,
    .act 2 (.peer (.returns 0)) 0, .act 1 (.peer (.receives (.bitfield [0]) 0)) 0,
    .act 1 (.peer (.receives .interested 0)) 0]

/-- Moves without failures and decisions about choking are allowed in any network. -/
def Steady : FifoNetworks.Move Proc SessionAction Message → Bool
  | .connect _ _ _ _ => false
  | .accept _ p => match p with
    | .starter _ => true
    | .peer _ => false
  | .hears _ _ => false
  | .act _ (.peer .raises) _ => false
  | .act _ (.peer (.rechokes _)) _ => false
  | .act _ _ _ => true

theorem seeded_of_steady (h : Steady m = true) (c : Net Session Proc Message) : Seeded n c m := by
  cases m with
  | connect i k p q => cases h
  | accept i p =>
    cases p with
    | starter st => exact fun _ => ⟨st, rfl⟩
    | peer t => cases h
  | hears k msg => cases h
  | act k b via =>
    cases b with
    | start b => trivial
    | peer a =>
      intro x t _ _ _
      cases a with
      | raises => cases h
      | rechokes amChoking => cases h
      | _ =>
        constructor
        · intro hno
          cases hno
        · intro hno
          cases hno

def Rests (c : Net Session Proc Message) (e : ℕ) (n j : ℕ) : Bool :=
  match c.ends[e]? with
  | some ⟨k, some l, .peer t, []⟩ => k = n ∧ l = j ∧ t.point = .receive
  | _ => false

theorem Rests.end {c : Net Session Proc Message} {e n j : ℕ} (h : Rests c e n j = true) :
    ∃ x t, c.ends[e]? = some x ∧ x.node = n ∧ x.partner = some j ∧ x.proc = .peer t ∧
      t.point = .receive ∧ x.inbox = [] := by
  unfold Rests at h
  split at h
  · next k l t hx =>
    obtain ⟨hk, hl, hp⟩ := of_decide_eq_true h
    exact ⟨_, t, hx, hk, congrArg some hl, rfl, hp, rfl⟩
  · cases h

theorem reach_introduced {tr : Tracker} {c₀ c₁ c : Net Session Proc Message}
    (hrun : run (protocol id .files) (swarm tr disks) seeding = some c₀)
    (halone : c₀.ends.all fun z => z.node ≠ 1) (hcomplete : (c₀.shared 0).tracker.isComplete)
    (happ : apply (protocol id .files) c₀ joins = some c₁)
    (hrun' : run (protocol id .files) c₁ introducing = some c) :
    Reach (protocol id .files) (fun c m => Wired c m ∧ Seeded 1 c m) (swarm tr disks) c := by
  have hplain : ∀ m ∈ seeding ++ introducing, Plain m ∧ Steady m = true := by decide +kernel
  have hsteady : ∀ m ∈ seeding ++ introducing, ∀ c, Wired c m ∧ Seeded 1 c m := fun m hm c =>
    ⟨wired_of_plain (hplain m hm).1 c, seeded_of_steady (hplain m hm).2 c⟩
  have hjoins : Seeded 1 c₀ joins := by
    intro _
    refine ⟨fun k z hz hnode => ?_, by decide, ⟨_, _, rfl⟩, ⟨_, _, rfl⟩, hcomplete⟩
    have hall := List.all_eq_true.mp halone z (List.mem_of_getElem? hz)
    exact absurd hnode (of_decide_eq_true hall)
  have hreach₀ := (Reach.refl (P := protocol id .files)).run
    (fun m hm => hsteady m (List.mem_append_left _ hm)) hrun
  have hreach₁ := hreach₀.next joins ⟨⟨⟨_, _, _, rfl⟩, ⟨_, _, _, rfl⟩⟩, hjoins⟩ happ
  exact hreach₁.run (fun m hm => hsteady m (List.mem_append_right _ hm)) hrun'

theorem only_choking_stops_introduced :
    ∃ tr c₀ c₁ c y u, init 20 20 (List.replicate 20 7) = some tr ∧
      run (protocol id .files) (swarm tr disks) seeding = some c₀ ∧
      apply (protocol id .files) c₀ joins = some c₁ ∧
      run (protocol id .files) c₁ introducing = some c ∧ AtRest id .files c 2 ∧
      AtRest id .files c 1 ∧ c.ends[1]? = some y ∧ y.proc = .peer u ∧
      ((c.shared 1).tracker.isComplete ∨ u.amChoking = true ∧ interested u = true) := by
  obtain ⟨tr, htr⟩ : ∃ tr, init 20 20 (List.replicate 20 7) = some tr := ⟨_, rfl⟩
  have hgoes : (run (protocol id .files) (swarm tr disks) seeding).any (fun c₀ =>
      decide (c₀.ends.all fun z => z.node ≠ 1) && decide ((c₀.shared 0).tracker.isComplete) &&
        (apply (protocol id .files) c₀ joins).any fun c₁ =>
          (run (protocol id .files) c₁ introducing).any fun c => Rests c 2 1 1 && Rests c 1 0 2) =
      true := by
    obtain rfl := Option.some.inj htr
    decide +kernel
  have hcount : tr.pieceCount < 2 ^ 32 := by
    obtain rfl := Option.some.inj htr
    decide
  obtain ⟨c₀, hrun, hgoes⟩ := (Option.any_eq_true _ _).mp hgoes
  obtain ⟨hready, hgoes⟩ := Bool.and_eq_true_iff.mp hgoes
  obtain ⟨halone, hcomplete⟩ := Bool.and_eq_true_iff.mp hready
  obtain ⟨c₁, happ, hgoes⟩ := (Option.any_eq_true _ _).mp hgoes
  obtain ⟨c, hrun', hrests⟩ := (Option.any_eq_true _ _).mp hgoes
  obtain ⟨hrest, hrest'⟩ := Bool.and_eq_true_iff.mp hrests
  obtain ⟨x, t, hx, hnode, hj, ht, hp, hinbox⟩ := Rests.end hrest
  obtain ⟨y, u, hy, -, -, hu, hq, hinbox'⟩ := Rests.end hrest'
  have hreach := reach_introduced hrun (of_decide_eq_true halone) (of_decide_eq_true hcomplete) happ
    hrun'
  have hatRest : AtRest id .files c 2 := by
    have hlive : Live t := by
      intro hgone
      rw [hp] at hgone
      cases hgone
    have hpoint : PointOk tr.specs t.point := by
      rw [hp]
      trivial
    exact (atRest_iff hx ht hlive hpoint).mpr ⟨hp, hinbox⟩
  have hatRest' : AtRest id .files c 1 := by
    have hlive : Live u := by
      intro hgone
      rw [hq] at hgone
      cases hgone
    have hpoint : PointOk tr.specs u.point := by
      rw [hq]
      trivial
    exact (atRest_iff hy hu hlive hpoint).mpr ⟨hq, hinbox'⟩
  exact ⟨tr, c₀, c₁, c, y, u, htr, hrun, happ, hrun', hatRest, hatRest', hy, hu,
    only_choking_stops (by decide) (by decide) (by decide) htr hcount
      (fun n => List.length_replicate) (one_piece htr) hreach hx hnode ht hj hy hu hatRest hatRest'⟩

end

end SeededClients
