import Aiobt.BlockTransfer
import Aiobt.ServedPieces

/-! # What a step does to a transfer

The blocks of the current piece and the messages on the wire. The turns of the engine leave them
out; here each step is told by what it does to them. -/
namespace TransferTurns

open ByteStrings PieceTracker PeerMessages PieceEngine SessionTasks PieceSearch EngineTurns FlatStore
open InterleavedProcesses BlockTransfer

variable {sha1 : Bytes → Bytes} {kind : StorageKind} {a : Action} {hint : ℕ} {s s₁ s' : Session}
  {t t₁ t' : Task}

section
variable {spec : PieceSpec} {block : ℕ × ℕ}

theorem first_block (h : 0 < spec.length) : (0, blockLen spec 0) ∈ blocks spec := by
  have hlt : ((0 : ℕ) : ℤ) < spec.length := h
  rw [blocks, blocksFrom_succ hlt (Nat.le_add_right _ 0)]
  exact List.mem_cons_self

theorem blocksFrom_next {n start : ℕ} (hn : spec.length.toNat ≤ n + start)
    (h : block ∈ blocksFrom spec n start) (hlt : ((block.1 + block.2 : ℕ) : ℤ) < spec.length) :
    (block.1 + block.2, blockLen spec (block.1 + block.2)) ∈ blocksFrom spec n start := by
  induction n generalizing start with
  | zero => cases h
  | succ n ih =>
    by_cases hstart : (start : ℤ) < spec.length
    · obtain ⟨hpos, -, -⟩ := blockLen_spec hstart
      have hrest : spec.length.toNat ≤ n + (start + blockLen spec start) := by omega
      rw [blocksFrom, if_pos hstart] at h ⊢
      refine List.mem_cons_of_mem _ ?_
      rcases List.mem_cons.mp h with rfl | h
      · rw [blocksFrom_succ hlt hrest]
        exact List.mem_cons_self
      · exact ih hrest h
    · rw [blocksFrom_end hstart] at h
      cases h

theorem next_block (h : block ∈ blocks spec) (hlt : ((block.1 + block.2 : ℕ) : ℤ) < spec.length) :
    (block.1 + block.2, blockLen spec (block.1 + block.2)) ∈ blocks spec :=
  blocksFrom_next (Nat.le_add_right _ 0) h hlt

theorem block_inside (h : block ∈ blocks spec) : (block.1 : ℤ) + block.2 ≤ spec.length := by
  obtain ⟨-, hle, hpos⟩ := (blocks_tiling spec).inside h
  omega

end

structure SameTransfer (t t' : Task) : Prop where
  peerPieces : t'.peerPieces = t.peerPieces
  currentPiece : t'.currentPiece = t.currentPiece
  pieceSpec : t'.pieceSpec = t.pieceSpec
  pieceBlocks : t'.pieceBlocks = t.pieceBlocks

def heardBy : Action → Task → List Entry
  | .receives msg _, t => [.received msg t.amChoking]
  | _, _ => []

def Aside : Action → Task → Prop
  | .receives (.piece index _ _) _, t => t.currentPiece ≠ some index
  | .receives .choke _, t => t.currentPiece = none
  | _, _ => True

structure Kept (a : Action) (t t' : Task) : Prop where
  same : SameTransfer t t'
  aside : Aside a t
  asked : ∀ spec offset, t.point = .sendRequest spec offset → t'.point = t.point ∨
    ¬ ((offset + blockLen spec offset : ℕ) : ℤ) < spec.length ∨ stage t'.point = .gone
  asking : requesting t'.point = true → t'.point = t.point
  running : stage t'.point = .running → stage t.point = .running ∨ stage t.point = .fresh

/-- What a step does to the piece of a task and to what it knows of its peer. -/
inductive Transfer (a : Action) (s : Session) (t t' : Task) : Prop
  | keeps : Kept a t t' → Transfer a s t t'
  | drops : t'.peerPieces = t.peerPieces → t'.currentPiece = none → requesting t'.point = false →
      Transfer a s t t'
  | learns {data hint} : a = .receives (.bitfield data) hint →
      SameTransfer { t with peerPieces := bitfieldToSet data s.tracker.pieceCount } t' →
      requesting t'.point = false →
      s.tracker.isComplete ∨ t'.log = t.log ++ heardBy a t ++ [.sent .interested] →
      Transfer a s t t'
  | hears {index hint} : a = .receives (.havePiece index) hint →
      SameTransfer { t with peerPieces := insert index t.peerPieces } t' →
      requesting t'.point = false →
      s.tracker.isComplete ∨ t.amInterested = true ∨
        t'.log = t.log ++ heardBy a t ++ [.sent .interested] → Transfer a s t t'
  | starts {index spec} : index ∈ t.peerPieces → index ∉ s.tracker.got →
      s.tracker.specs[index]? = some spec → t'.peerPieces = t.peerPieces →
      t'.currentPiece = some index → t'.pieceSpec = some spec → t'.pieceBlocks = [] →
      t'.peerChoking = false →
      requesting t'.point = false ∧ ¬ 0 < spec.length ∨
        t'.point = .sendRequest spec 0 ∧ 0 < spec.length ∧
          t'.log = t.log ++ heardBy a t ++ [.sent (requestOf spec (0, blockLen spec 0))] →
      Transfer a s t t'
  | asks {spec offset} : t.point = .sendRequest spec offset → SameTransfer t t' →
      t'.point = .sendRequest spec (offset + blockLen spec offset) →
      ((offset + blockLen spec offset : ℕ) : ℤ) < spec.length →
      t'.log = t.log ++ heardBy a t ++ [.sent (requestOf spec
        (offset + blockLen spec offset, blockLen spec (offset + blockLen spec offset)))] →
      Transfer a s t t'
  | gets {index begin block hint} : a = .receives (.piece index begin block) hint →
      t.currentPiece = some index →
      SameTransfer { t with pieceBlocks := setBlock t.pieceBlocks begin block } t' →
      requesting t'.point = false →
      (stage t'.point = .running → ∀ spec, t.pieceSpec = some spec →
        pieceComplete (setBlock t.pieceBlocks begin block) spec.length = false) →
      Transfer a s t t'

/-- What a step may add to the log, beside the message that it takes. -/
inductive Says (a : Action) (s : Session) (t t' : Task) : Entry → Prop
  | read {index begin length hint : ℕ} {offset : ℤ} :
      a = .receives (.request index begin length) hint → Says a s t t' (.read offset length)
  | bitfield {data} : t.point = .starting → t'.point = .sendBitfield →
      buildBitfield s.tracker = some data → Says a s t t' (.sent (.bitfield data))
  | interested : ¬ s.tracker.isComplete →
      (∃ data hint, a = .receives (.bitfield data) hint) ∨
        (∃ index hint, a = .receives (.havePiece index) hint) → Says a s t t' (.sent .interested)
  | unchoke {hint : ℕ} : a = .receives .interested hint → t.rates = none →
      Says a s t t' (.sent .unchoke)
  | request {spec offset} : t'.point = .sendRequest spec offset → (offset : ℤ) < spec.length →
      Says a s t t' (.sent (requestOf spec (offset, blockLen spec offset)))
  | piece {index begin length offset data} : t.point = .read index begin length offset data →
      fetchByte s.storage offset length data = none →
      t'.log = t.log ++ [.sent (.piece index begin data)] →
      Says a s t t' (.sent (.piece index begin data))
  | havePiece {index spec} : t.point = .emitVerified index spec →
      Says a s t t' (.sent (.havePiece index))
  | notInterested : t.point = .emitCompleted → t'.point = .sendNotInterested →
      Says a s t t' (.sent .notInterested)

def chokingAfter : Action → Task → Bool
  | .receives .choke _, _ => true
  | .receives .unchoke _, _ => false
  | _, t => t.peerChoking

def sentMessage : Entry → Option Message
  | .sent msg => some msg
  | _ => none

/-- What a step sends to the peer of its task; the choking manager sends its decision when it is
new. -/
def sentBy : Action → Task → Task → List Message
  | .rechokes amChoking, t, _ =>
    if t.amChoking = amChoking then [] else [if amChoking then .choke else .unchoke]
  | _, t, t' => (t'.log.drop t.log.length).filterMap sentMessage

def decided (t : Task) : Option (Bool × Bool) := t.rates.map fun r => (r.amChoking, r.peerInterested)

def decidedAfter : Action → Task → Option (Bool × Bool)
  | .receives .interested _, t => (decided t).map fun d => (d.1, true)
  | .receives .notInterested _, t => (decided t).map fun d => (d.1, false)
  | .rechokes amChoking, t => (decided t).map fun d => (amChoking, d.2)
  | _, t => decided t

def Busy (t : Task) : Prop :=
  t.currentPiece ≠ none ∨ ∃ index spec, stage t.point = .written index spec

structure Worked (a : Action) (s : Session) (t t' : Task) : Prop where
  transfer : Transfer a s t t'
  log : t'.log = t.log ++ heardBy a t ∨ ∃ e, t'.log = t.log ++ heardBy a t ++ [e] ∧ Says a s t t' e
  choking : t'.peerChoking = chokingAfter a t ∨ t.point = .sendBitfield ∧ t'.peerChoking = true
  interest : t'.amInterested = true → t.amInterested = true ∨ t.point = .sendInterested
  decided : decided t' = decidedAfter a t
  completed : t'.point = .emitCompleted →
    t.point = .emitCompleted ∨ s.tracker.isComplete ∧ Busy t ∧ t'.currentPiece = none
  interested : t'.point = .sendInterested →
    t.point = .sendInterested ∨ t'.log = t.log ++ heardBy a t ++ [.sent .interested]

theorem SameTransfer.refl (t : Task) : SameTransfer t t := ⟨rfl, rfl, rfl, rfl⟩

structure Heard (a : Action) (t t₁ : Task) : Prop where
  log : t₁.log = t.log ++ heardBy a t
  choking : t₁.peerChoking = chokingAfter a t
  interest : t₁.amInterested = t.amInterested
  decided : TransferTurns.decided t₁ = decidedAfter a t

/-- Neither is the download completed nor interest expressed. -/
def passing : Await → Bool
  | .sendInterested => false
  | .emitCompleted => false
  | _ => true

structure Goes (a : Action) (s : Session) (t t₁ t' : Task) : Prop where
  choking : t'.peerChoking = t₁.peerChoking
  interest : t'.amInterested = t₁.amInterested
  decided : TransferTurns.decided t' = TransferTurns.decided t₁
  completed : t'.point = .emitCompleted →
    t.point = .emitCompleted ∨ s.tracker.isComplete ∧ Busy t ∧ t'.currentPiece = none
  interested : t'.point = .sendInterested →
    t.point = .sendInterested ∨ t'.log = t.log ++ heardBy a t ++ [.sent .interested]

theorem Goes.to (h : t'.peerChoking = t₁.peerChoking ∧ t'.amInterested = t₁.amInterested ∧
    t'.rates = t₁.rates) (hp : passing t'.point = true) : Goes a s t t₁ t' where
  choking := h.1
  interest := h.2.1
  decided := congrArg (Option.map _) h.2.2
  completed hc := by
    rw [hc] at hp
    cases hp
  interested hi := by
    rw [hi] at hp
    cases hp

theorem Heard.worked (h : Heard a t t₁) (hgoes : Goes a s t t₁ t') (htransfer : Transfer a s t t')
    (hlog : t'.log = t.log ++ heardBy a t ∨
      ∃ e, t'.log = t.log ++ heardBy a t ++ [e] ∧ Says a s t t' e) : Worked a s t t' where
  transfer := htransfer
  log := hlog
  choking := Or.inl (hgoes.choking.trans h.choking)
  interest hi := by
    rw [hgoes.interest, h.interest] at hi
    exact Or.inl hi
  decided := hgoes.decided.trans h.decided
  completed := hgoes.completed
  interested := hgoes.interested

theorem Heard.quiet (h : Heard a t t₁) (htransfer : Transfer a s t t') (hlog : t'.log = t₁.log)
    (hsame : t'.peerChoking = t₁.peerChoking ∧ t'.amInterested = t₁.amInterested ∧
      t'.rates = t₁.rates) (hp : passing t'.point = true) : Worked a s t t' :=
  h.worked (.to hsame hp) htransfer (Or.inl (hlog.trans h.log))

theorem Heard.speaks {e : Entry} (h : Heard a t t₁) (htransfer : Transfer a s t t')
    (hlog : t'.log = t.log ++ heardBy a t ++ [e]) (hadds : Says a s t t' e)
    (hsame : t'.peerChoking = t₁.peerChoking ∧ t'.amInterested = t₁.amInterested ∧
      t'.rates = t₁.rates) (hp : passing t'.point = true) : Worked a s t t' :=
  h.worked (.to hsame hp) htransfer (Or.inr ⟨e, hlog, hadds⟩)

/-- A message that is handled without a change of the transfer. -/
theorem kept_of_receive (hp : t.point = .receive) (hsame : SameTransfer t t') (haside : Aside a t)
    (hasking : requesting t'.point = false) : Kept a t t' where
  same := hsame
  aside := haside
  asked spec offset hreq := by
    rw [hp] at hreq
    cases hreq
  asking hreq := by
    rw [hasking] at hreq
    cases hreq
  running _ := by
    rw [hp]
    exact Or.inl rfl

theorem kept_of_quiet (hsame : SameTransfer t t') (haside : Aside a t)
    (hquiet : requesting t.point = false) (hasking : requesting t'.point = false)
    (hrunning : stage t'.point = .running → stage t.point = .running ∨ stage t.point = .fresh) :
    Kept a t t' where
  same := hsame
  aside := haside
  asked spec offset hreq := by
    rw [hreq] at hquiet
    cases hquiet
  asking hreq := by
    rw [hasking] at hreq
    cases hreq
  running := hrunning

theorem kept_of_stay (hsame : SameTransfer t t') (haside : Aside a t) (hp : t'.point = t.point) :
    Kept a t t' where
  same := hsame
  aside := haside
  asked _ _ _ := Or.inl hp
  asking _ := hp
  running hrunning := by
    rw [← hp]
    exact Or.inl hrunning

theorem kept_of_gone (hsame : SameTransfer t t') (haside : Aside a t) (hp : stage t'.point = .gone) :
    Kept a t t' where
  same := hsame
  aside := haside
  asked _ _ _ := Or.inr (Or.inr hp)
  asking hreq := by
    rcases stage_eq_gone.mp hp with hp | hp
    · rw [hp] at hreq
      cases hreq
    · rw [hp] at hreq
      cases hreq
  running hrunning := by
    rw [hp] at hrunning
    cases hrunning

theorem nextPiece_worked (h : Heard a t t₁) (hpieces : t₁.peerPieces = t.peerPieces)
    (hnone : t₁.currentPiece = none) (hfree : t₁.peerChoking = false)
    (hspecs : s₁.tracker.specs = s.tracker.specs) (hgot : s₁.tracker.got = s.tracker.got)
    (hnext : nextPiece hint s₁ t₁ = (s', t')) : Worked a s t t' := by
  obtain ⟨tr, eg, started, hstart, hcases⟩ := nextPiece_cases hnext
  rcases hcases with ⟨-, -, rfl⟩ | ⟨index, spec, rfl, -, rfl⟩ | ⟨-, -, rfl⟩
  · exact h.quiet (.drops hpieces rfl rfl) rfl ⟨rfl, rfl, rfl⟩ rfl
  · obtain ⟨hpeer, hlacks, hat⟩ := startPiece_piece hstart
    rw [hpieces] at hpeer
    rw [hgot] at hlacks
    rw [hspecs] at hat
    unfold requestFrom
    split
    · next hlt =>
      have hlog : ((t₁.takePiece index spec).send (.request spec.index.toNat 0 (blockLen spec 0))
          (.sendRequest spec 0)).log =
            t.log ++ heardBy a t ++ [.sent (requestOf spec (0, blockLen spec 0))] := by
        rw [← h.log]
        rfl
      refine h.speaks ?_ hlog (.request rfl hlt) ⟨rfl, rfl, rfl⟩ rfl
      exact .starts hpeer hlacks hat hpieces rfl rfl rfl hfree (Or.inr ⟨rfl, hlt, hlog⟩)
    · next hge =>
      refine h.quiet ?_ rfl ⟨rfl, rfl, rfl⟩ rfl
      exact .starts hpeer hlacks hat hpieces rfl rfl rfl hfree (Or.inl ⟨rfl, hge⟩)
  · exact h.quiet (.drops hpieces hnone rfl) rfl ⟨rfl, rfl, rfl⟩ rfl

theorem finishPiece_worked (h : Heard a t t₁) (hpieces : t₁.peerPieces = t.peerPieces)
    (hspecs : s₁.tracker.specs = s.tracker.specs) (hgot : s₁.tracker.got = s.tracker.got)
    (hcount : s₁.tracker.pieceCount = s.tracker.pieceCount) (hbusy : Busy t)
    (hnext : finishPiece hint s₁ t₁ = (s', t')) : Worked a s t t' := by
  rcases finishPiece_cases hnext with ⟨hcomplete, -, rfl⟩ | ⟨-, -, -, rfl⟩ | ⟨-, hfree, hnext⟩
  · refine h.worked ⟨rfl, rfl, rfl, fun _ => Or.inr ?_, fun hi => ?_⟩ (.drops hpieces rfl rfl)
      (Or.inl h.log)
    · rw [Tracker.isComplete, hgot, hcount] at hcomplete
      exact ⟨hcomplete, hbusy, rfl⟩
    · cases hi
  · exact h.quiet (.drops hpieces rfl rfl) rfl ⟨rfl, rfl, rfl⟩ rfl
  · have hdropped : Heard a t t₁.dropPiece := ⟨h.log, h.choking, h.interest, h.decided⟩
    exact nextPiece_worked hdropped hpieces rfl hfree hspecs hgot hnext

/-- A block goes into the piece, which may be complete with it. -/
theorem onBlock_worked {index begin : ℕ} {block : Bytes}
    (ha : a = .receives (.piece index begin block) hint) (hcur : t.currentPiece = some index)
    (h : Heard a t t₁) (hsame : SameTransfer t t₁)
    (hnext : onBlock sha1 hint s t₁ index begin block = (s', t')) : Worked a s t t' := by
  have hgets : ∀ {t₂ : Task},
      SameTransfer { t₁ with pieceBlocks := setBlock t₁.pieceBlocks begin block } t₂ →
      requesting t₂.point = false →
      (stage t₂.point = .running → ∀ spec, t₁.pieceSpec = some spec →
        pieceComplete (setBlock t₁.pieceBlocks begin block) spec.length = false) →
      Transfer a s t t₂ := by
    intro t₂ h₂ hpoint hwaits
    rw [hsame.pieceSpec, hsame.pieceBlocks] at hwaits
    refine .gets ha hcur ⟨?_, ?_, ?_, ?_⟩ hpoint hwaits
    · exact h₂.peerPieces.trans hsame.peerPieces
    · exact h₂.currentPiece.trans hsame.currentPiece
    · exact h₂.pieceSpec.trans hsame.pieceSpec
    · rw [h₂.pieceBlocks]
      exact congrArg (setBlock · begin block) hsame.pieceBlocks
  have hheard : Heard a t ({ t₁ with
      pieceBlocks := setBlock t₁.pieceBlocks begin block }.countDown block.length) := by
    refine ⟨h.log, h.choking, h.interest, Eq.trans ?_ h.decided⟩
    simp only [decided, Task.countDown, Option.map_map]
    rfl
  unfold onBlock at hnext
  simp only at hnext
  split at hnext
  · next hnone =>
    obtain ⟨-, rfl⟩ := Prod.mk.inj hnext
    refine hheard.quiet (hgets ⟨rfl, rfl, rfl, rfl⟩ rfl fun _ spec hspec => ?_) rfl ⟨rfl, rfl, rfl⟩
      rfl
    cases hnone.symm.trans hspec
  · next spec hspec =>
    split at hnext
    · split at hnext
      · obtain ⟨-, rfl⟩ := Prod.mk.inj hnext
        refine hheard.quiet (hgets ⟨rfl, rfl, rfl, rfl⟩ rfl fun hrunning => ?_) rfl ⟨rfl, rfl, rfl⟩
          rfl
        cases hrunning
      · split at hnext
        · obtain ⟨-, rfl⟩ := Prod.mk.inj hnext
          refine hheard.quiet (hgets ⟨rfl, rfl, rfl, rfl⟩ rfl fun hrunning => ?_) rfl
            ⟨rfl, rfl, rfl⟩ rfl
          cases hrunning
        · have hbusy : Busy t := Or.inl (by simp [hcur])
          refine finishPiece_worked hheard hsame.peerPieces ?_ ?_ ?_ hbusy hnext
          · rfl
          · rfl
          · rfl
    · next hwaits =>
      obtain ⟨-, rfl⟩ := Prod.mk.inj hnext
      refine hheard.quiet (hgets ⟨rfl, rfl, rfl, rfl⟩ rfl fun _ spec' hspec' => ?_) rfl
        ⟨rfl, rfl, rfl⟩ rfl
      obtain rfl := Option.some.inj (hspec.symm.trans hspec')
      exact Bool.eq_false_iff.mpr hwaits

theorem announced_worked {interest : Bool} (h : Heard a t t₁)
    (hmsg : (∃ data hint, a = .receives (.bitfield data) hint) ∨
      ∃ index hint, a = .receives (.havePiece index) hint)
    (hcomplete : s₁.tracker.isComplete ↔ s.tracker.isComplete)
    (htransfer : ∀ t₂, SameTransfer t₁ t₂ → requesting t₂.point = false →
      s.tracker.isComplete ∨ interest = false ∨
        t₂.log = t.log ++ heardBy a t ++ [.sent .interested] → Transfer a s t t₂)
    (hnext : announced s₁ t₁ interest = (s', t')) : Worked a s t t' := by
  unfold announced at hnext
  split at hnext
  · next hwants =>
    obtain ⟨-, rfl⟩ := Prod.mk.inj hnext
    have hlog : (t₁.send .interested .sendInterested).log =
        t.log ++ heardBy a t ++ [.sent .interested] := by
      rw [← h.log]
      rfl
    have hopen : ¬ s.tracker.isComplete := fun hc => hwants.1 (hcomplete.mpr hc)
    refine h.worked ⟨rfl, rfl, rfl, fun hc => ?_, fun _ => Or.inr hlog⟩ ?_
      (Or.inr ⟨_, hlog, .interested hopen hmsg⟩)
    · cases hc
    · exact htransfer _ ⟨rfl, rfl, rfl, rfl⟩ rfl (Or.inr (Or.inr hlog))
  · next hwants =>
    obtain ⟨-, rfl⟩ := Prod.mk.inj hnext
    refine h.quiet ?_ rfl ⟨rfl, rfl, rfl⟩ rfl
    refine htransfer _ ⟨rfl, rfl, rfl, rfl⟩ rfl ?_
    rw [not_and_or, not_not] at hwants
    rcases hwants with hc | hi
    · exact Or.inl (hcomplete.mp hc)
    · exact Or.inr (Or.inl (by simpa using hi))

theorem onMessage_worked {msg : Message} (ha : a = .receives msg hint) (hp : t.point = .receive)
    (hnext : onMessage sha1 hint s t msg = (s', t')) : Worked a s t t' := by
  subst ha
  have hlogs : chokingAfter (.receives msg hint) t = t.peerChoking →
      decidedAfter (.receives msg hint) t = decided t →
      ∀ t₁ : Task, t₁ = { t with log := t.log ++ [Entry.received msg t.amChoking] } →
        Heard (.receives msg hint) t t₁ := by
    rintro hchoking hdecided t₁ rfl
    exact ⟨rfl, hchoking.symm, rfl, hdecided.symm⟩
  have hstays : chokingAfter (.receives msg hint) t = t.peerChoking →
      decidedAfter (.receives msg hint) t = decided t → Aside (.receives msg hint) t →
      t' = Task.goto { t with log := t.log ++ [.received msg t.amChoking] } .receive →
      Worked (.receives msg hint) s t t' := by
    rintro hchoking hdecided haside rfl
    exact (hlogs hchoking hdecided _ rfl).quiet
      (.keeps (kept_of_receive hp ⟨rfl, rfl, rfl, rfl⟩ haside rfl)) rfl ⟨rfl, rfl, rfl⟩
        rfl
  cases msg with
  | keepAlive => exact hstays rfl rfl trivial (Prod.mk.inj hnext).2.symm
  | bitfield data =>
    have hknows := hlogs rfl rfl _ rfl
    unfold onMessage at hnext
    simp only at hnext
    refine announced_worked ?_ (Or.inl ⟨data, hint, rfl⟩) ?_ (fun t₂ hsame hpoint hinterest => ?_) hnext
    · exact ⟨hknows.log, hknows.choking, hknows.interest, hknows.decided⟩
    · exact Iff.rfl
    refine .learns rfl ⟨hsame.peerPieces, hsame.currentPiece, hsame.pieceSpec, hsame.pieceBlocks⟩
      hpoint ?_
    rcases hinterest with hc | hi | hsent
    · exact Or.inl hc
    · cases hi
    · exact Or.inr hsent
  | havePiece index =>
    have hknows := hlogs rfl rfl _ rfl
    unfold onMessage at hnext
    simp only at hnext
    refine announced_worked ?_ (Or.inr ⟨index, hint, rfl⟩) ?_ (fun t₂ hsame hpoint hinterest => ?_) hnext
    · exact ⟨hknows.log, hknows.choking, hknows.interest, hknows.decided⟩
    · exact Iff.rfl
    refine .hears rfl ⟨hsame.peerPieces, hsame.currentPiece, hsame.pieceSpec, hsame.pieceBlocks⟩
      hpoint ?_
    rcases hinterest with hc | hi | hsent
    · exact Or.inl hc
    · exact Or.inr (Or.inl (by simpa using hi))
    · exact Or.inr (Or.inr hsent)
  | interested =>
    unfold onMessage at hnext
    simp only at hnext
    split at hnext
    · next rates hrates =>
      obtain ⟨-, rfl⟩ := Prod.mk.inj hnext
      have hheard : Heard (.receives .interested hint) t (setInterest { t with
          log := t.log ++ [.received .interested t.amChoking] } true) := by
        refine ⟨rfl, rfl, rfl, ?_⟩
        simp only [decided, decidedAfter, setInterest, Option.map_map]
        rfl
      exact hheard.quiet (.keeps (kept_of_receive hp ⟨rfl, rfl, rfl, rfl⟩ trivial rfl)) rfl
        ⟨rfl, rfl, rfl⟩ rfl
    · next hrates =>
      obtain ⟨-, rfl⟩ := Prod.mk.inj hnext
      have hrates : t.rates = none := hrates
      have hheard : Heard (.receives .interested hint) t { t with
          log := t.log ++ [.received .interested t.amChoking] } := by
        refine ⟨rfl, rfl, rfl, ?_⟩
        simp [decided, decidedAfter, hrates]
      exact hheard.speaks (.keeps (kept_of_receive hp ⟨rfl, rfl, rfl, rfl⟩ trivial rfl)) rfl
        (.unchoke rfl hrates) ⟨rfl, rfl, rfl⟩ rfl
  | notInterested =>
    unfold onMessage at hnext
    simp only at hnext
    obtain ⟨-, rfl⟩ := Prod.mk.inj hnext
    have hheard : Heard (.receives .notInterested hint) t (setInterest { t with
        log := t.log ++ [.received .notInterested t.amChoking] } false) := by
      refine ⟨rfl, rfl, rfl, ?_⟩
      simp only [decided, decidedAfter, setInterest, Option.map_map]
      rfl
    exact hheard.quiet (.keeps (kept_of_receive hp ⟨rfl, rfl, rfl, rfl⟩ trivial rfl)) rfl
      ⟨rfl, rfl, rfl⟩ rfl
  | choke =>
    have hheard : Heard (.receives .choke hint) t { t with
        log := t.log ++ [.received .choke t.amChoking]
        peerChoking := true } := ⟨rfl, rfl, rfl, rfl⟩
    unfold onMessage at hnext
    simp only at hnext
    split at hnext
    · next hnone =>
      obtain ⟨-, rfl⟩ := Prod.mk.inj hnext
      exact hheard.quiet (.keeps (kept_of_receive hp ⟨rfl, rfl, rfl, rfl⟩ hnone rfl)) rfl
        ⟨rfl, rfl, rfl⟩ rfl
    · obtain ⟨-, rfl⟩ := Prod.mk.inj hnext
      exact hheard.quiet (.drops rfl rfl rfl) rfl ⟨rfl, rfl, rfl⟩ rfl
  | unchoke =>
    have hheard : Heard (.receives .unchoke hint) t { t with
        log := t.log ++ [.received .unchoke t.amChoking]
        peerChoking := false } := ⟨rfl, rfl, rfl, rfl⟩
    unfold onMessage at hnext
    simp only at hnext
    split at hnext
    · next hstarts => exact nextPiece_worked hheard rfl hstarts.2 rfl rfl rfl hnext
    · obtain ⟨-, rfl⟩ := Prod.mk.inj hnext
      exact hheard.quiet (.keeps (kept_of_receive hp ⟨rfl, rfl, rfl, rfl⟩ trivial rfl)) rfl
        ⟨rfl, rfl, rfl⟩ rfl
  | request index begin length =>
    unfold onMessage onRequest at hnext
    simp only at hnext
    split at hnext
    · exact hstays rfl rfl trivial (Prod.mk.inj hnext).2.symm
    · split at hnext
      · split at hnext
        · obtain ⟨-, rfl⟩ := Prod.mk.inj hnext
          exact (hlogs rfl rfl _ rfl).quiet
            (.keeps (kept_of_gone ⟨rfl, rfl, rfl, rfl⟩ trivial rfl)) rfl ⟨rfl, rfl, rfl⟩
            rfl
        · obtain ⟨-, rfl⟩ := Prod.mk.inj hnext
          exact (hlogs rfl rfl _ rfl).speaks
            (.keeps (kept_of_receive hp ⟨rfl, rfl, rfl, rfl⟩ trivial rfl)) rfl (.read rfl) ⟨rfl, rfl, rfl⟩
            rfl
      · exact hstays rfl rfl trivial (Prod.mk.inj hnext).2.symm
  | piece index begin block =>
    unfold onMessage at hnext
    simp only at hnext
    split at hnext
    · next hcur => exact onBlock_worked rfl hcur (hlogs rfl rfl _ rfl) ⟨rfl, rfl, rfl, rfl⟩ hnext
    · next hother => exact hstays rfl rfl hother (Prod.mk.inj hnext).2.symm
  | cancel index begin length => exact hstays rfl rfl trivial (Prod.mk.inj hnext).2.symm

theorem afterHave_worked {index : ℕ} {spec : PieceSpec} (h : Heard a t t) (haside : Aside a t)
    (hp : t.point = .sendHave index spec) (hnext : afterHave hint s t index spec = (s', t')) :
    Worked a s t t' := by
  have hbusy : Busy t := Or.inr ⟨index, spec, by rw [hp]; rfl⟩
  unfold afterHave cancelFrom at hnext
  split at hnext
  · simp only at hnext
    split at hnext
    · obtain ⟨-, rfl⟩ := Prod.mk.inj hnext
      have hkept : Kept a t (t.goto (.sendCancel index spec ((s.endgame.pieceDone index).2.erase t.addr)
          0 ((s.endgame.pieceDone index).2.erase t.addr))) :=
        kept_of_quiet ⟨rfl, rfl, rfl, rfl⟩ haside (by rw [hp]; rfl) rfl fun hr => by cases hr
      exact h.quiet (.keeps hkept) rfl ⟨rfl, rfl, rfl⟩ rfl
    · refine finishPiece_worked h rfl ?_ ?_ ?_ hbusy hnext
      · rfl
      · rfl
      · rfl
  · exact finishPiece_worked h rfl rfl rfl rfl hbusy hnext

theorem resume_worked (h : resume kind hint s t = some (s', t')) :
    Worked (.returns hint) s t t' := by
  have hheard : Heard (.returns hint) t t := ⟨(List.append_nil _).symm, rfl, rfl, rfl⟩
  have hkept : ∀ {t₂ : Task}, SameTransfer t t₂ → requesting t.point = false →
      requesting t₂.point = false →
      (stage t₂.point = .running → stage t.point = .running ∨ stage t.point = .fresh) →
      Transfer (.returns hint) s t t₂ := fun hsame hquiet hasking hrunning =>
    .keeps (kept_of_quiet hsame trivial hquiet hasking hrunning)
  unfold resume at h
  split at h
  case h_1 hp =>
    obtain ⟨rfl, rfl⟩ := Prod.mk.inj (Option.some.inj h)
    refine ⟨hkept ⟨rfl, rfl, rfl, rfl⟩ (by rw [hp]; rfl) rfl (fun _ => Or.inr (by rw [hp]; rfl)),
      Or.inl hheard.log, Or.inr ⟨hp, rfl⟩, fun hi => ?_, rfl, fun hc => ?_, fun hi => ?_⟩
    · cases hi
    · cases hc
    · cases hi
  case h_2 hp =>
    obtain ⟨rfl, rfl⟩ := Prod.mk.inj (Option.some.inj h)
    refine ⟨hkept ⟨rfl, rfl, rfl, rfl⟩ (by rw [hp]; rfl) rfl (fun _ => Or.inl (by rw [hp]; rfl)),
      Or.inl hheard.log, Or.inl rfl, fun _ => Or.inr hp, rfl, fun hc => ?_, fun hi => ?_⟩
    · cases hc
    · cases hi
  case h_3 hp =>
    obtain ⟨rfl, rfl⟩ := Prod.mk.inj (Option.some.inj h)
    exact hheard.quiet (hkept ⟨rfl, rfl, rfl, rfl⟩ (by rw [hp]; rfl) rfl
      (fun _ => Or.inl (by rw [hp]; rfl))) rfl ⟨rfl, rfl, rfl⟩ rfl
  case h_4 spec offset hp =>
    obtain ⟨rfl, rfl⟩ := Prod.mk.inj (Option.some.inj h)
    unfold requestFrom
    split
    · next hlt =>
      have hlog : (t.send (.request spec.index.toNat (offset + blockLen spec offset)
          (blockLen spec (offset + blockLen spec offset)))
          (.sendRequest spec (offset + blockLen spec offset))).log =
            t.log ++ heardBy (.returns hint) t ++ [.sent (requestOf spec
              (offset + blockLen spec offset, blockLen spec (offset + blockLen spec offset)))] := by
        rw [← hheard.log]
        rfl
      exact hheard.speaks (.asks hp ⟨rfl, rfl, rfl, rfl⟩ rfl hlt hlog) hlog (.request rfl hlt)
        ⟨rfl, rfl, rfl⟩ rfl
    · next hover =>
      refine hheard.quiet (.keeps ⟨⟨rfl, rfl, rfl, rfl⟩, trivial, fun sp off hreq => ?_,
        fun hreq => ?_, fun _ => Or.inl (by rw [hp]; rfl)⟩) rfl ⟨rfl, rfl, rfl⟩ rfl
      · obtain ⟨rfl, rfl⟩ := Await.sendRequest.inj (hp.symm.trans hreq)
        exact Or.inr (Or.inl hover)
      · cases hreq
  case h_5 index begin length offset data hp =>
    split at h
    · cases h
    · next hover =>
      split at h
      · obtain ⟨rfl, rfl⟩ := Prod.mk.inj (Option.some.inj h)
        exact hheard.quiet (.keeps (kept_of_gone ⟨rfl, rfl, rfl, rfl⟩ trivial rfl)) rfl
          ⟨rfl, rfl, rfl⟩ rfl
      · obtain ⟨rfl, rfl⟩ := Prod.mk.inj (Option.some.inj h)
        refine hheard.speaks (hkept ⟨rfl, rfl, rfl, rfl⟩ (by rw [hp]; rfl) rfl
          (fun _ => Or.inl (by rw [hp]; rfl))) ?_ (.piece hp (not_not.mp hover) rfl) ⟨rfl, rfl, rfl⟩
          rfl
        rw [← hheard.log]
        rfl
  case h_6 size hp =>
    obtain ⟨rfl, rfl⟩ := Prod.mk.inj (Option.some.inj h)
    refine hheard.worked ⟨rfl, rfl, ?_, fun hc => ?_, fun hi => ?_⟩ (hkept ⟨rfl, rfl, rfl, rfl⟩
      (by rw [hp]; rfl) rfl (fun _ => Or.inl (by rw [hp]; rfl))) (Or.inl hheard.log)
    · simp only [decided, Task.goto, Task.countUp, Option.map_map]
      rfl
    · cases hc
    · cases hi
  case h_7 index spec assembled hp =>
    obtain ⟨rfl, rfl⟩ := Prod.mk.inj (Option.some.inj h)
    refine hheard.quiet (hkept ⟨rfl, rfl, rfl, rfl⟩ (by rw [hp]; rfl) rfl fun hr => ?_) rfl
      ⟨rfl, rfl, rfl⟩ rfl
    cases hr
  case h_8 index spec hp =>
    obtain ⟨rfl, rfl⟩ := Prod.mk.inj (Option.some.inj h)
    refine hheard.speaks (hkept ⟨rfl, rfl, rfl, rfl⟩ (by rw [hp]; rfl) rfl fun hr => ?_) ?_
      (.havePiece hp) ⟨rfl, rfl, rfl⟩ rfl
    · cases hr
    · rw [← hheard.log]
      rfl
  case h_9 index spec hp => exact afterHave_worked hheard trivial hp (Option.some.inj h)
  case h_10 hp =>
    obtain ⟨rfl, rfl⟩ := Prod.mk.inj (Option.some.inj h)
    refine hheard.speaks (hkept ⟨rfl, rfl, rfl, rfl⟩ (by rw [hp]; rfl) rfl
      fun _ => Or.inl (by rw [hp]; rfl)) ?_ (.notInterested hp rfl) ⟨rfl, rfl, rfl⟩ rfl
    rw [← hheard.log]
    rfl
  case h_11 hp =>
    obtain ⟨rfl, rfl⟩ := Prod.mk.inj (Option.some.inj h)
    refine ⟨hkept ⟨rfl, rfl, rfl, rfl⟩ (by rw [hp]; rfl) rfl (fun _ => Or.inl (by rw [hp]; rfl)),
      Or.inl hheard.log, Or.inl rfl, fun hi => ?_, rfl, fun hc => ?_, fun hi => ?_⟩
    · cases hi
    · cases hc
    · cases hi
  case h_12 hp =>
    obtain ⟨rfl, rfl⟩ := Prod.mk.inj (Option.some.inj h)
    exact hheard.quiet (.keeps (kept_of_gone ⟨rfl, rfl, rfl, rfl⟩ trivial rfl)) rfl ⟨rfl, rfl, rfl⟩
      rfl
  case h_13 => cases h

theorem cancelStep_worked {addr : Address} {connected : Bool}
    (h : cancelStep addr connected hint s t = some (s', t')) :
    Worked (.cancels addr connected hint) s t t' := by
  have hheard : Heard (.cancels addr connected hint) t t :=
    ⟨(List.append_nil _).symm, rfl, rfl, rfl⟩
  unfold cancelStep at h
  split at h
  · next index spec addrs offset left hp =>
    have hkept : ∀ point, requesting point = false → stage point ≠ .running →
        Transfer (.cancels addr connected hint) s t (t.goto point) := fun point hasking hstage =>
      .keeps (kept_of_quiet ⟨rfl, rfl, rfl, rfl⟩ trivial (by rw [hp]; rfl) hasking
        fun hr => absurd hr hstage)
    split at h
    · simp only at h
      split at h
      · obtain ⟨rfl, rfl⟩ := Prod.mk.inj (Option.some.inj h)
        exact hheard.quiet (hkept _ rfl (by simp [stage])) rfl ⟨rfl, rfl, rfl⟩ rfl
      · have h := Option.some.inj h
        unfold cancelFrom at h
        split at h
        · obtain ⟨rfl, rfl⟩ := Prod.mk.inj h
          exact hheard.quiet (hkept _ rfl (by simp [stage])) rfl ⟨rfl, rfl, rfl⟩ rfl
        · refine finishPiece_worked hheard rfl ?_ ?_ ?_ (Or.inr ⟨index, spec, by rw [hp]; rfl⟩) h
          · split <;> rfl
          · split <;> rfl
          · split <;> rfl
    · cases h
  · cases h

/-- What every step of a task does to its transfer, and what it says. -/
theorem worked_of_step (h : taskStep sha1 kind a s t = some (s', t')) : Worked a s t t' := by
  cases a with
  | starts =>
    have hheard : Heard .starts t t := ⟨(List.append_nil _).symm, rfl, rfl, rfl⟩
    simp only [taskStep] at h
    split at h
    · next hp =>
      split at h
      · obtain ⟨rfl, rfl⟩ := Prod.mk.inj (Option.some.inj h)
        exact hheard.quiet (.keeps (kept_of_gone ⟨rfl, rfl, rfl, rfl⟩ trivial rfl)) rfl
          ⟨rfl, rfl, rfl⟩ rfl
      · next hbuilt =>
        obtain ⟨rfl, rfl⟩ := Prod.mk.inj (Option.some.inj h)
        refine hheard.speaks (.keeps (kept_of_quiet ⟨rfl, rfl, rfl, rfl⟩ trivial (by rw [hp]; rfl) rfl
          fun hr => ?_)) ?_ (.bitfield hp rfl hbuilt) ⟨rfl, rfl, rfl⟩ rfl
        · cases hr
        · rw [← hheard.log]
          rfl
    · cases h
  | receives msg hint =>
    simp only [taskStep] at h
    split at h
    · next hp => exact onMessage_worked rfl hp (Option.some.inj h)
    · cases h
  | returns hint => exact resume_worked h
  | raises =>
    have hheard : Heard .raises t t := ⟨(List.append_nil _).symm, rfl, rfl, rfl⟩
    have hleaves : ∀ point, stage point = .gone → Worked .raises s t (t.goto point) :=
      fun point hgone => hheard.quiet (.keeps (kept_of_gone ⟨rfl, rfl, rfl, rfl⟩ trivial hgone)) rfl
        ⟨rfl, rfl, rfl⟩ (by
          show passing point = true
          rcases stage_eq_gone.mp hgone with rfl | rfl
          · rfl
          · rfl)
    simp only [taskStep] at h
    split at h
    · obtain ⟨rfl, rfl⟩ := Prod.mk.inj (Option.some.inj h)
      exact hleaves _ rfl
    · obtain ⟨rfl, rfl⟩ := Prod.mk.inj (Option.some.inj h)
      exact hleaves _ rfl
    · cases h
    · obtain ⟨rfl, rfl⟩ := Prod.mk.inj (Option.some.inj h)
      exact hleaves _ rfl
  | fetches =>
    have hheard : Heard .fetches t t := ⟨(List.append_nil _).symm, rfl, rfl, rfl⟩
    simp only [taskStep] at h
    split at h
    · next hp =>
      obtain ⟨byte, -, heq⟩ := Option.map_eq_some_iff.mp h
      obtain ⟨rfl, rfl⟩ := Prod.mk.inj heq
      exact hheard.quiet (.keeps (kept_of_quiet ⟨rfl, rfl, rfl, rfl⟩ trivial (by rw [hp]; rfl) rfl
        fun _ => Or.inl (by rw [hp]; rfl))) rfl ⟨rfl, rfl, rfl⟩ rfl
    · cases h
  | stores k =>
    have hheard : Heard (.stores k) t t := ⟨(List.append_nil _).symm, rfl, rfl, rfl⟩
    simp only [taskStep] at h
    split at h
    · obtain ⟨byte, -, heq⟩ := Option.map_eq_some_iff.mp h
      obtain ⟨rfl, rfl⟩ := Prod.mk.inj heq
      exact hheard.worked ⟨rfl, rfl, rfl, Or.inl, Or.inl⟩ (.keeps (kept_of_stay (.refl t) trivial rfl))
        (Or.inl hheard.log)
    · cases h
  | cancels addr connected hint => exact cancelStep_worked h
  | rechokes amChoking =>
    simp only [taskStep] at h
    split at h
    · cases h
    · next rates hrates =>
      obtain ⟨rfl, rfl⟩ := Prod.mk.inj (Option.some.inj h)
      refine ⟨.keeps (kept_of_stay ⟨rfl, rfl, rfl, rfl⟩ trivial rfl), Or.inl (List.append_nil _).symm,
        Or.inl rfl, Or.inl, ?_, Or.inl, Or.inl⟩
      simp [decided, decidedAfter, hrates]

theorem logged_of_sentBy {msg : Message} (ha : ∀ amChoking, a ≠ .rechokes amChoking)
    (h : msg ∈ sentBy a t t') : .sent msg ∈ t'.log.drop t.log.length := by
  have hlogged : msg ∈ (t'.log.drop t.log.length).filterMap sentMessage →
      .sent msg ∈ t'.log.drop t.log.length := by
    intro hm
    obtain ⟨e, he, hsent⟩ := List.mem_filterMap.mp hm
    cases e with
    | sent m =>
      obtain rfl : m = msg := Option.some.inj hsent
      exact he
    | received _ _ => cases hsent
    | read _ _ => cases hsent
  cases a with
  | rechokes amChoking => exact absurd rfl (ha amChoking)
  | _ => exact hlogged h

/-- What is sent is logged, or a new decision of the choking manager. -/
theorem sentBy_cases {msg : Message} (h : msg ∈ sentBy a t t') :
    msg = .choke ∨ msg = .unchoke ∨ .sent msg ∈ t'.log.drop t.log.length := by
  by_cases ha : ∃ amChoking, a = .rechokes amChoking
  · obtain ⟨amChoking, rfl⟩ := ha
    simp only [sentBy] at h
    split at h
    · cases h
    · obtain rfl := List.mem_singleton.mp h
      cases amChoking with
      | true => exact Or.inl rfl
      | false => exact Or.inr (Or.inl rfl)
  · exact Or.inr (Or.inr (logged_of_sentBy (fun amChoking heq => ha ⟨amChoking, heq⟩) h))

theorem not_sent_heardBy {msg : Message} : .sent msg ∉ heardBy a t := by
  cases a <;> simp [heardBy]

theorem Worked.logged (h : Worked a s t t') {msg : Message}
    (hm : .sent msg ∈ t'.log.drop t.log.length) : Says a s t t' (.sent msg) := by
  rcases h.log with hlog | ⟨e, hlog, hadds⟩
  · rw [hlog, List.drop_left] at hm
    exact absurd hm not_sent_heardBy
  · rw [hlog, List.append_assoc, List.drop_left] at hm
    rcases List.mem_append.mp hm with hm | hm
    · exact absurd hm not_sent_heardBy
    · exact List.mem_singleton.mp hm ▸ hadds

theorem Worked.sent (h : Worked a s t t') {msg : Message} (hmsg : msg ∈ sentBy a t t') :
    msg = .choke ∨ msg = .unchoke ∨ Says a s t t' (.sent msg) :=
  (sentBy_cases hmsg).imp_right (Or.imp_right h.logged)

end TransferTurns
