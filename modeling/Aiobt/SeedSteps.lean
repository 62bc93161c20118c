import Aiobt.SwarmProgress

/-! # Steps beside a seed

Steps of a task at whose other end is the task of a client that has every piece, and steps of that
task. -/
namespace SeedSteps

open ByteStrings PieceTracker PeerMessages PieceEngine SessionTasks PieceSearch EngineTurns FlatStore
open BlockTransfer VerifiedPieces BitfieldLayout TransferTurns PeerExceptions Swarms

variable {sha1 : Bytes → Bytes} {kind : StorageKind} {content : ℕ → Bytes} {specs : List PieceSpec}
  {size : ℕ} {a : PieceEngine.Action} {hint : ℕ} {s s₁ s' r r' : Session} {t t₁ t' u u' : Task}
  {msg : Message} {inbox outbox rest : List Message}

def Full (specs : List PieceSpec) (pieces : Finset ℕ) : Prop := ∀ i < specs.length, i ∈ pieces

theorem Full.mono {pieces more : Finset ℕ} (h : Full specs pieces) (hsub : pieces ⊆ more) :
    Full specs more := fun i hi => hsub (h i hi)

theorem isComplete_iff (hs : Sound s) (hspecs : s.tracker.specs = specs) :
    s.tracker.isComplete ↔ Full specs s.tracker.got := by
  have hcount := hs.count
  have hlength : specs.length = s.tracker.pieceCount.toNat := hspecs ▸ hs.specs
  have hsub : s.tracker.got ⊆ Finset.range specs.length := by
    intro i hi
    rw [Finset.mem_range, hlength]
    exact hs.inside i hi
  rw [Tracker.isComplete]
  constructor
  · intro hcard i hi
    have heq : s.tracker.got = Finset.range specs.length := by
      apply Finset.eq_of_subset_of_card_le hsub
      rw [Finset.card_range]
      omega
    rw [heq]
    exact Finset.mem_range.mpr hi
  · intro hfull
    have heq : s.tracker.got = Finset.range specs.length :=
      Finset.Subset.antisymm hsub fun i hi => hfull i (Finset.mem_range.mp hi)
    rw [heq, Finset.card_range]
    omega

theorem built_full {tr : Tracker} {data : Bytes} (h : buildBitfield tr = some data)
    (hcount : specs.length = tr.pieceCount.toNat) (hfull : Full specs tr.got) :
    ∀ i < specs.length, hasPiece data i = true := by
  intro i hi
  simp only [buildBitfield] at h
  split at h
  · cases h
  · obtain rfl := Option.some.inj h
    have hlt : i / 8 < ((tr.pieceCount + 7).fdiv 8).toNat := by
      rw [Int.fdiv_eq_ediv_of_nonneg _ (by omega)]
      omega
    rw [hasPiece_map_bitfieldByte hlt]
    exact decide_eq_true (hfull i hi)

def chokedBy (choked : Bool) (inbox : List Message) : Bool :=
  inbox.foldl (fun choked msg => match msg with
    | .choke => true
    | .unchoke => false
    | _ => choked) choked

theorem chokedBy_append (choked : Bool) (inbox more : List Message) :
    chokedBy choked (inbox ++ more) = chokedBy (chokedBy choked inbox) more := List.foldl_append

theorem chokedBy_silent {choked : Bool} (hchoke : .choke ∉ inbox) (hunchoke : .unchoke ∉ inbox) :
    chokedBy choked inbox = choked := by
  induction inbox with
  | nil => rfl
  | cons msg inbox ih =>
    obtain ⟨hc, hchoke'⟩ := List.ne_and_not_mem_of_not_mem_cons hchoke
    obtain ⟨hu, hunchoke'⟩ := List.ne_and_not_mem_of_not_mem_cons hunchoke
    rw [chokedBy, List.foldl_cons]
    cases msg with
    | choke => exact absurd rfl hc
    | unchoke => exact absurd rfl hu
    | _ => exact ih hchoke' hunchoke'

/-- Without a Choke on its way a task does not come to be choked. -/
theorem choked_of_chokedBy {choked : Bool} (hchoke : .choke ∉ inbox)
    (h : chokedBy choked inbox = true) : choked = true := by
  induction inbox generalizing choked with
  | nil => exact h
  | cons msg inbox ih =>
    obtain ⟨hc, hchoke'⟩ := List.ne_and_not_mem_of_not_mem_cons hchoke
    rw [chokedBy, List.foldl_cons] at h
    have hnext := ih hchoke' h
    cases msg with
    | choke => exact absurd rfl hc
    | unchoke => cases hnext
    | _ => exact hnext

theorem point_of_receives (h : taskStep sha1 kind (.receives msg hint) s t = some (s', t')) :
    t.point = .receive := by
  simp only [taskStep] at h
  split at h
  · next hp => exact hp
  · cases h

theorem sentBy_of_log (h : taskStep sha1 kind a s t = some (s', t'))
    (hlog : t'.log = t.log ++ heardBy a t ++ [.sent msg]) : msg ∈ sentBy a t t' := by
  have hdrop : msg ∈ (t'.log.drop t.log.length).filterMap sentMessage := by
    rw [hlog, List.append_assoc, List.drop_left, List.filterMap_append]
    exact List.mem_append_right _ List.mem_cons_self
  cases a with
  | rechokes amChoking =>
    obtain ⟨rates, -, -, rfl⟩ := rechokes_cases h
    exact absurd (congrArg List.length hlog) (by simp)
  | _ => exact hdrop

theorem choked_cases (h : Worked a s t t') (hchoked : t'.peerChoking = true) :
    t.peerChoking = true ∨ t.point = .sendBitfield ∨ ∃ hint, a = .receives .choke hint := by
  rcases h.choking with heq | ⟨hp, -⟩
  · rw [heq] at hchoked
    unfold chokingAfter at hchoked
    split at hchoked
    · exact Or.inr (Or.inr ⟨_, rfl⟩)
    · cases hchoked
    · exact Or.inl hchoked
  · exact Or.inr (Or.inl hp)

theorem amChoking_eq (t : Task) : t.amChoking = ((decided t).map Prod.fst).getD false := by
  rw [Task.amChoking, decided, Option.map_map]
  rfl

theorem isSome_decided (t : Task) : (decided t).isSome = t.rates.isSome := Option.isSome_map

theorem seed_turn (h : Turn sha1 kind a s t s' t') (hidle : t.currentPiece = none)
    (hstage : stage t.point = .fresh ∨ stage t.point = .running) (hcomplete : s.tracker.isComplete)
    (hlive : Live t') : stage t'.point = .fresh ∨ stage t'.point = .running := by
  have hnot : ∀ {index spec}, stage t.point ≠ .written index spec := by
    intro index spec hw
    rcases hstage with hs | hs
    · cases hs.symm.trans hw
    · cases hs.symm.trans hw
  cases h with
  | keeps _ _ hsame =>
    rw [hsame]
    exact hstage
  | begins => exact Or.inr rfl
  | cancelled => exact absurd rfl hlive
  | bitfield _ _ _ _ hrunning => exact Or.inr hrunning
  | havePiece _ _ _ _ hrunning => exact Or.inr hrunning
  | choked _ _ hcur => cases hidle.symm.trans hcur
  | unchoked _ _ _ _ hrunning => exact Or.inr hrunning
  | starts _ _ hno => exact absurd hcomplete hno
  | verifies _ _ hcur => cases hidle.symm.trans hcur
  | fails _ _ hcur => cases hidle.symm.trans hcur
  | stores => exact hstage
  | writes _ hp =>
    rw [hp] at hstage
    rcases hstage with hs | hs
    · cases hs
    · cases hs
  | @withdraws index spec _ _ _ hp =>
    have hw : stage t.point = .written index spec := by
      rw [hp]
      rfl
    exact absurd hw hnot
  | finishes hw => exact absurd hw hnot
  | leaves => exact absurd rfl hlive

/-- A task that has begun does not begin again. -/
theorem fresh_turn (h : Turn sha1 kind a s t s' t') (hfresh : stage t'.point = .fresh) :
    stage t.point = .fresh := by
  have hnot : ∀ {st : Stage}, st ≠ .fresh → stage t'.point = st → stage t.point = .fresh := by
    intro st hne heq
    exact absurd (heq.symm.trans hfresh) hne
  cases h with
  | keeps _ _ hsame => exact hsame ▸ hfresh
  | begins => cases hfresh
  | cancelled => cases hfresh
  | bitfield _ _ _ _ hrunning => exact hnot (by simp) hrunning
  | havePiece _ _ _ _ hrunning => exact hnot (by simp) hrunning
  | choked _ _ _ _ _ hrunning => exact hnot (by simp) hrunning
  | unchoked _ _ _ _ hrunning => exact hnot (by simp) hrunning
  | starts _ _ _ _ _ _ _ hnext =>
    rcases nextPiece_stage hnext with hs | hs
    · exact hnot (by simp) hs
    · exact hnot (by simp) hs
  | verifies _ _ _ _ _ _ hwriting => exact hnot (by simp) hwriting
  | fails _ _ _ _ _ _ _ _ _ hfinish =>
    rcases finishPiece_stage hfinish with hs | hs
    · exact hnot (by simp) hs
    · exact hnot (by simp) hs
  | stores => exact hfresh
  | writes => cases hfresh
  | withdraws _ _ _ hwritten => exact hnot (by simp) hwritten
  | finishes _ _ _ _ _ _ _ hfinish =>
    rcases finishPiece_stage hfinish with hs | hs
    · exact hnot (by simp) hs
    · exact hnot (by simp) hs
  | leaves => cases hfresh

/-- What is pending is fetched by the task, and the task has a piece unless it is choked or nothing
is missing. -/
structure AtWork (s : Session) (t : Task) : Prop where
  alone : ∀ i ∈ s.tracker.pending, t.currentPiece = some i
  busy : t.peerChoking = false → t.currentPiece = none → s.tracker.isComplete

theorem nextPiece_atWork (hspecs : s₁.tracker.specs.length = s₁.tracker.pieceCount.toNat)
    (hcomplete : s₁.tracker.isComplete ↔ Full s₁.tracker.specs s₁.tracker.got)
    (hfull : Full s₁.tracker.specs t₁.peerPieces) (hpending : s₁.tracker.pending = ∅)
    (hnext : nextPiece hint s₁ t₁ = (s', t')) : AtWork s' t' := by
  have hsearch : search t₁.peerPieces s₁.tracker = (s₁.tracker, s₁.tracker.selectPiece) := by
    apply search_first
    intro i hi
    apply hfull
    rw [hspecs]
    exact (Tracker.selectPiece_spec hi).1
  cases hselect : s₁.tracker.selectPiece with
  | none =>
    have hdone : s₁.tracker.isComplete := by
      rw [hcomplete]
      intro i hi
      rw [hspecs] at hi
      rcases got_or_pending_of_select_none hselect hi with hgot | hpend
      · exact hgot
      · rw [hpending] at hpend
        cases hpend
    have hstart : startPiece hint s₁.tracker s₁.endgame t₁ =
        (s₁.tracker, s₁.endgame, .nothing) := by
      rw [startPiece, hsearch, hselect]
      exact if_neg fun hno => hno.2 hdone
    rw [nextPiece, hstart] at hnext
    obtain ⟨rfl, rfl⟩ := Prod.mk.inj hnext
    refine ⟨fun i hi => ?_, fun _ _ => hdone⟩
    rw [hpending] at hi
    cases hi
  | some idx =>
    obtain ⟨spec, hspec⟩ : ∃ spec, s₁.tracker.specs[idx]? = some spec := by
      have hlt := (Tracker.selectPiece_spec hselect).1
      rw [← hspecs] at hlt
      exact ⟨_, List.getElem?_eq_getElem hlt⟩
    have hstart : ∃ eg, startPiece hint s₁.tracker s₁.endgame t₁ =
        (s₁.tracker.markPending idx, eg, .piece idx spec) := by
      simp only [startPiece, hsearch, hselect, Tracker.markPending_specs, hspec]
      exact ⟨_, rfl⟩
    obtain ⟨eg, hstart⟩ := hstart
    rw [nextPiece, hstart] at hnext
    obtain ⟨rfl, rfl⟩ := Prod.mk.inj hnext
    have hcur : (requestFrom (t₁.takePiece idx spec) spec 0).currentPiece = some idx :=
      (samePieces_requestFrom _ spec 0).1.currentPiece
    refine ⟨fun i hi => ?_, fun _ hnone => ?_⟩
    · rw [Tracker.markPending_pending, hpending] at hi
      rw [hcur]
      exact congrArg some (Finset.mem_singleton.mp hi).symm
    · cases hcur.symm.trans hnone

theorem finishPiece_atWork (hspecs : s₁.tracker.specs.length = s₁.tracker.pieceCount.toNat)
    (hcomplete : s₁.tracker.isComplete ↔ Full s₁.tracker.specs s₁.tracker.got)
    (hfull : Full s₁.tracker.specs t₁.peerPieces) (hpending : s₁.tracker.pending = ∅)
    (hfinish : finishPiece hint s₁ t₁ = (s', t')) : AtWork s' t' := by
  have hempty : ∀ i ∈ s₁.tracker.pending, t₁.dropPiece.currentPiece = some i := by
    intro i hi
    rw [hpending] at hi
    cases hi
  rcases finishPiece_cases hfinish with ⟨hdone, rfl, rfl⟩ | ⟨-, hchoking, rfl, rfl⟩ | ⟨-, -, hnext⟩
  · exact ⟨hempty, fun _ _ => hdone⟩
  · refine ⟨hempty, fun hfree _ => ?_⟩
    cases hchoking.symm.trans hfree
  · have hdropped : Full s₁.tracker.specs t₁.dropPiece.peerPieces := hfull
    exact nextPiece_atWork hspecs hcomplete hdropped hpending hnext

theorem isComplete_mono (hs : Sound s) (hs' : Sound s') (hspecs : s'.tracker.specs = s.tracker.specs)
    (hgot : s.tracker.got ⊆ s'.tracker.got) (hcomplete : s.tracker.isComplete) :
    s'.tracker.isComplete := by
  rw [isComplete_iff hs' hspecs]
  exact ((isComplete_iff hs rfl).mp hcomplete).mono hgot

theorem AtWork.same (h : AtWork s t) (hpending : s'.tracker.pending ⊆ s.tracker.pending)
    (hcomplete : s.tracker.isComplete → s'.tracker.isComplete)
    (hcur : t'.currentPiece = t.currentPiece)
    (hchoking : t'.peerChoking = t.peerChoking ∨ t'.peerChoking = true) : AtWork s' t' where
  alone i hi := by
    rw [hcur]
    exact h.alone i (hpending hi)
  busy hfree hnone := by
    rw [hcur] at hnone
    rcases hchoking with hsame | hchoked
    · exact hcomplete (h.busy (hsame ▸ hfree) hnone)
    · cases hchoked.symm.trans hfree

/-- The turn of a task that knows the pieces of its seed when it may start one. -/
theorem AtWork.turn (h : AtWork s t) (hturn : Turn sha1 kind a s t s' t') (hs : Sound s)
    (hs' : Sound s') (hok : TaskOk sha1 s.tracker.specs t) (hlive : Live t')
    (hknows : t.peerChoking = false ∨ (∃ hint, a = .receives .unchoke hint) →
      Full s.tracker.specs t.peerPieces)
    (hdrops : t.peerChoking = true → t.currentPiece = none)
    (hwritten : ∀ index spec, stage t.point = .written index spec → index ∉ s.tracker.pending) :
    AtWork s' t' := by
  have hfree : ∀ {index}, t.currentPiece = some index → t.peerChoking = false := by
    intro index hcur
    by_contra hno
    cases (hdrops (by simpa using hno)).symm.trans hcur
  have hcomplete := isComplete_iff hs rfl
  have hgrows := isComplete_mono hs hs' (hturn.taskOk hok).1 hturn.got_subset
  have herased : ∀ {index}, t.currentPiece = some index → s.tracker.pending.erase index = ∅ := by
    intro index hcur
    apply Finset.eq_empty_of_forall_notMem
    intro i hi
    obtain ⟨hne, hi⟩ := Finset.mem_erase.mp hi
    exact hne (Option.some.inj ((h.alone i hi).symm.trans hcur))
  have hchoking : ∀ {t₁ : Task}, SamePieces t t₁ →
      t₁.peerChoking = t.peerChoking ∨ t₁.peerChoking = true := fun ht =>
    ht.peerChoking.imp_right And.left
  cases hturn with
  | keeps hsame ht _ =>
    exact h.same (hsame.tracker ▸ Finset.Subset.refl _) hgrows ht.currentPiece (hchoking ht)
  | begins => exact h.same (Finset.Subset.refl _) hgrows rfl (Or.inr rfl)
  | cancelled => exact absurd rfl hlive
  | bitfield _ _ hsame ht _ =>
    exact h.same (hsame.tracker ▸ Finset.Subset.refl _) hgrows ht.currentPiece
      (ht.peerChoking.imp_right And.left)
  | havePiece _ _ hsame ht _ =>
    exact h.same (hsame.tracker ▸ Finset.Subset.refl _) hgrows ht.currentPiece
      (ht.peerChoking.imp_right And.left)
  | @choked _ p _ _ _ hcur ht hchoked _ =>
    refine ⟨fun i hi => ?_, fun hno => ?_⟩
    · rw [Tracker.markFailed_pending, herased hcur] at hi
      cases hi
    · cases hchoked.symm.trans hno
  | unchoked _ _ hwhy ht _ =>
    refine ⟨fun i hi => ?_, fun _ hnone => ?_⟩
    · rw [ht.currentPiece]
      exact h.alone i hi
    · rw [ht.currentPiece] at hnone
      exact hwhy.resolve_right fun hsome => hsome hnone
  | @starts _ t₁ _ _ ha _ _ hnone ht hunchoked _ hnext =>
    have hfull : Full s.tracker.specs t₁.peerPieces := by
      rw [ht.peerPieces]
      exact hknows (Or.inr ⟨_, ha⟩)
    refine nextPiece_atWork hs.specs hcomplete hfull ?_ hnext
    apply Finset.eq_empty_of_forall_notMem
    intro i hi
    cases hnone.symm.trans (h.alone i hi)
  | verifies _ _ _ _ _ ht _ =>
    exact h.same (Finset.Subset.refl _) hgrows ht.currentPiece (hchoking ht)
  | @fails index _ _ _ _ _ t₁ _ _ _ _ hcur _ _ _ _ ht _ hfinish =>
    have hfull : Full s.tracker.specs t₁.peerPieces := by
      rw [ht.peerPieces]
      exact hknows (Or.inl (hfree hcur))
    refine finishPiece_atWork ?_ ?_ ?_ ?_ hfinish
    · exact hs.specs
    · exact hcomplete
    · exact hfull
    · exact herased hcur
  | stores => exact h.same (Finset.Subset.refl _) hgrows rfl (Or.inl rfl)
  | writes => exact h.same (Finset.erase_subset _ _) hgrows rfl (Or.inl rfl)
  | withdraws _ _ ht _ => exact h.same (Finset.Subset.refl _) hgrows ht.currentPiece (hchoking ht)
  | @finishes index spec _ s₁ _ _ hw _ htracker _ _ _ _ hfinish =>
    have hcur := (hok.written index spec hw).1
    refine finishPiece_atWork ?_ ?_ ?_ ?_ hfinish
    · rw [htracker]
      exact hs.specs
    · rw [htracker]
      exact hcomplete
    · rw [htracker]
      exact hknows (Or.inl (hfree hcur))
    · rw [htracker]
      apply Finset.eq_empty_of_forall_notMem
      intro i hi
      obtain rfl : index = i := Option.some.inj (hcur.symm.trans (h.alone i hi))
      exact hwritten index spec hw hi
  | leaves => exact absurd rfl hlive

inductive Accounted (t u : Task) (inbox outbox : List Message) (i : ℕ) (block : ℕ × ℕ) : Prop
  | here {data} : (block.1, data) ∈ t.pieceBlocks → Accounted t u inbox outbox i block
  | coming {data} : .piece i block.1 data ∈ inbox → Accounted t u inbox outbox i block
  | reading {offset data} : u.point = .read i block.1 block.2 offset data →
      Accounted t u inbox outbox i block
  | asked : .request i block.1 block.2 ∈ outbox → Accounted t u inbox outbox i block
  | later {spec offset} : t.point = .sendRequest spec offset → offset < block.1 →
      Accounted t u inbox outbox i block

theorem mem_setBlock {entries : List (ℕ × Bytes)} {begin key : ℕ} {block data : Bytes}
    (h : (key, data) ∈ entries) : ∃ data', (key, data') ∈ setBlock entries begin block := by
  unfold setBlock
  split
  · by_cases hkey : key = begin
    · subst hkey
      exact ⟨block, List.mem_map.mpr ⟨(key, data), h, if_pos rfl⟩⟩
    · exact ⟨data, List.mem_map.mpr ⟨(key, data), h, if_neg hkey⟩⟩
  · exact ⟨data, List.mem_append_left _ h⟩

theorem mem_setBlock_self (entries : List (ℕ × Bytes)) (begin : ℕ) (block : Bytes) :
    (begin, block) ∈ setBlock entries begin block := by
  unfold setBlock
  split
  · next hany =>
    obtain ⟨entry, hentry, hbegin⟩ := List.any_eq_true.mp hany
    exact List.mem_map.mpr ⟨entry, hentry, if_pos (beq_iff_eq.mp hbegin)⟩
  · exact List.mem_append_right _ List.mem_cons_self

section
variable {spec : PieceSpec} {block other : ℕ × ℕ}

theorem block_behind (h : block ∈ blocks spec) (hother : other ∈ blocks spec)
    (hlt : block.1 < other.1) : block.1 + block.2 ≤ other.1 := by
  have hapart : (blocks spec).Pairwise fun x y => x.1 + x.2 ≤ y.1 ∨ y.1 + y.2 ≤ x.1 :=
    (blocks_tiling spec).apart.imp Or.inl
  have hsymm : Std.Symm fun x y : ℕ × ℕ => x.1 + x.2 ≤ y.1 ∨ y.1 + y.2 ≤ x.1 := ⟨fun _ _ => Or.symm⟩
  have hne : block ≠ other := by
    rintro rfl
    exact Nat.lt_irrefl _ hlt
  rcases hapart.forall h hother hne with hle | hle
  · exact hle
  · omega

/-- The block at an offset is asked for when its turn comes, and the others behind it later. -/
theorem Accounted.asks {i offset : ℕ} (hblock : (offset, blockLen spec offset) ∈ blocks spec)
    (hother : other ∈ blocks spec) (hle : offset ≤ other.1) (hp : t.point = .sendRequest spec offset)
    (hsent : .request i offset (blockLen spec offset) ∈ outbox) :
    Accounted t u inbox outbox i other := by
  rcases Nat.lt_or_eq_of_le hle with hlt | heq
  · exact .later hp hlt
  · obtain rfl := block_unique hblock hother heq
    exact .asked hsent

end

theorem mem_taken (h : msg ∈ (takenBy (.peer a)).toList) : ∃ hint, a = .receives msg hint := by
  cases a with
  | receives m hint =>
    obtain rfl := List.mem_singleton.mp h
    exact ⟨hint, rfl⟩
  | _ => cases h

/-- A block stays accounted for when its task goes on, unless the step is about it. -/
theorem Accounted.near {outbox' : List Message} {i : ℕ} {block : ℕ × ℕ}
    (h : Accounted t u ((takenBy (.peer a)).toList ++ rest) outbox i block)
    (hout : ∀ msg ∈ outbox, msg ∈ outbox')
    (hhere : ∀ data, (block.1, data) ∈ t.pieceBlocks → ∃ data, (block.1, data) ∈ t'.pieceBlocks)
    (htaken : ∀ data hint, a = .receives (.piece i block.1 data) hint →
      Accounted t' u rest outbox' i block)
    (hlater : ∀ spec offset, t.point = .sendRequest spec offset → offset < block.1 →
      Accounted t' u rest outbox' i block) : Accounted t' u rest outbox' i block := by
  cases h with
  | here hm =>
    obtain ⟨data, hm⟩ := hhere _ hm
    exact .here hm
  | coming hm =>
    rcases List.mem_append.mp hm with hm | hm
    · obtain ⟨hint, ha⟩ := mem_taken hm
      exact htaken _ hint ha
    · exact .coming hm
  | reading hp => exact .reading hp
  | asked hm => exact .asked (hout _ hm)
  | later hp hlt => exact hlater _ _ hp hlt

theorem request_step {index begin length : ℕ} {spec : PieceSpec}
    (hstep : taskStep sha1 kind (.receives (.request index begin length) hint) r u = some (r', u'))
    (hfree : u.amChoking = false) (hgot : index ∈ r.tracker.got)
    (hspec : r.tracker.specs[index]? = some spec) :
    u'.point = .read index begin length (spec.offset + begin) [] := by
  have hserves : ∀ u₁ : Task, u₁.amChoking = false →
      (onRequest r u₁ index begin length).2.point = .read index begin length (spec.offset + begin) [] := by
    intro u₁ hfree₁
    rw [onRequest, if_neg (by simp [hfree₁]), if_pos hgot, hspec]
  have hp := point_of_receives hstep
  simp only [taskStep, hp] at hstep
  obtain rfl := congrArg Prod.snd (Option.some.inj hstep)
  exact hserves _ hfree

theorem read_step {index begin length : ℕ} {offset : ℤ} {data : Bytes}
    (hp : u.point = .read index begin length offset data) (hlive : Live u')
    (hstep : taskStep sha1 kind a r u = some (r', u')) :
    (∃ data, u'.point = .read index begin length offset data) ∨
      .piece index begin data ∈ sentBy a u u' := by
  cases a with
  | returns hint =>
    refine Or.inr (sentBy_of_log hstep ?_)
    simp only [taskStep, resume, hp] at hstep
    split at hstep
    · cases hstep
    · split at hstep
      · obtain ⟨-, rfl⟩ := Prod.mk.inj (Option.some.inj hstep)
        exact absurd rfl hlive
      · obtain ⟨-, rfl⟩ := Prod.mk.inj (Option.some.inj hstep)
        simp [Task.send, heardBy]
  | raises =>
    simp only [taskStep, hp] at hstep
    obtain ⟨-, rfl⟩ := Prod.mk.inj (Option.some.inj hstep)
    exact absurd rfl hlive
  | fetches =>
    simp only [taskStep, hp] at hstep
    obtain ⟨byte, -, heq⟩ := Option.map_eq_some_iff.mp hstep
    obtain ⟨-, rfl⟩ := Prod.mk.inj heq
    exact Or.inl ⟨_, rfl⟩
  | rechokes amChoking =>
    obtain ⟨rates, -, -, rfl⟩ := rechokes_cases hstep
    exact Or.inl ⟨data, hp⟩
  | _ => simp [taskStep, cancelStep, hp] at hstep

theorem starting_step (hp : u.point = .starting) (hlive : Live u')
    (hstep : taskStep sha1 kind a r u = some (r', u')) :
    u'.point = .starting ∨ ∃ data, .bitfield data ∈ sentBy a u u' := by
  cases a with
  | starts =>
    right
    have hlogged := hstep
    simp only [taskStep, hp] at hlogged
    split at hlogged
    · obtain ⟨-, rfl⟩ := Prod.mk.inj (Option.some.inj hlogged)
      exact absurd rfl hlive
    · next data _ =>
      refine ⟨data, sentBy_of_log hstep ?_⟩
      obtain ⟨-, rfl⟩ := Prod.mk.inj (Option.some.inj hlogged)
      simp [Task.send, heardBy]
  | raises =>
    simp only [taskStep, hp] at hstep
    obtain ⟨-, rfl⟩ := Prod.mk.inj (Option.some.inj hstep)
    exact absurd rfl hlive
  | rechokes amChoking =>
    obtain ⟨rates, -, -, rfl⟩ := rechokes_cases hstep
    exact Or.inl hp
  | _ => simp [taskStep, resume, cancelStep, hp] at hstep

/-- A Bitfield tells what the peer has, and is answered where something is missing. -/
theorem bitfield_step {data : Bytes}
    (hstep : taskStep sha1 kind (.receives (.bitfield data) hint) s t = some (s', t')) :
    t'.peerPieces = bitfieldToSet data s.tracker.pieceCount ∧
      (s.tracker.isComplete ∨ .interested ∈ sentBy (.receives (.bitfield data) hint) t t') := by
  have hp := point_of_receives hstep
  have hlogged := hstep
  simp only [taskStep, hp, onMessage, announced] at hlogged
  split at hlogged
  · obtain ⟨-, rfl⟩ := Prod.mk.inj (Option.some.inj hlogged)
    exact ⟨rfl, Or.inr (sentBy_of_log hstep rfl)⟩
  · next hno =>
    obtain ⟨-, rfl⟩ := Prod.mk.inj (Option.some.inj hlogged)
    refine ⟨rfl, Or.inl ?_⟩
    by_contra hincomplete
    exact hno ⟨hincomplete, trivial⟩

end SeedSteps
