import Aiobt.LeechingPairs

/-! # What a task says

Every message that a task sends, held against what it heard and sent before. -/
namespace PeerConduct

open ByteStrings PieceTracker PeerMessages PieceEngine SessionTasks PieceSearch EngineTurns
open InterleavedProcesses BlockTransfer VerifiedPieces BitfieldLayout ServedPieces TransferTurns
open Swarms SeedSteps LeechingPairs

variable {sha1 : Bytes → Bytes} {kind : StorageKind} {a : PieceEngine.Action} {s s' : Session}
  {t t' : Task} {specs : List PieceSpec} {count : ℤ} {log before added : List Entry}

/-- The pieces that the peer has announced; a Bitfield replaces what it announced before. -/
def toldBy (count : ℤ) (pieces : Finset ℕ) : Entry → Finset ℕ
  | .received (.bitfield data) _ => bitfieldToSet data count
  | .received (.havePiece index) _ => insert index pieces
  | _ => pieces

def told (count : ℤ) (log : List Entry) : Finset ℕ := log.foldl (toldBy count) ∅

def chokesBy (choking : Bool) : Entry → Bool
  | .received .choke _ => true
  | .received .unchoke _ => false
  | _ => choking

def chokes (log : List Entry) : Bool := log.foldl chokesBy true

def Announced (before : List Entry) : Prop :=
  ∃ l msg amChoking, before = l ++ [.received msg amChoking] ∧
    ((∃ data, msg = .bitfield data) ∨ ∃ index, msg = .havePiece index)

/-- A block that may be requested: the peer has its piece and does not choke, it knows of the
interest, and the block is the first of the piece or follows upon the one requested just before. -/
structure Requestable (specs : List PieceSpec) (count : ℤ) (before : List Entry) (index : ℕ)
    (spec : PieceSpec) (offset : ℕ) : Prop where
  listed : specs[index]? = some spec
  told : index ∈ told count before
  unchoked : chokes before = false
  interested : .sent .interested ∈ before
  unfinished : .sent .notInterested ∉ before
  block : (offset, blockLen spec offset) ∈ blocks spec
  follows : offset = 0 ∨ ∃ l previous, previous ∈ blocks spec ∧ previous.1 + previous.2 = offset ∧
    before = l ++ [.sent (.request index previous.1 previous.2)]

def Proper (specs : List PieceSpec) (count : ℤ) (s : Session) (t : Task) (before : List Entry) :
    Message → Prop
  | .bitfield data => before = [] ∧ ∀ i, hasPiece data i = true → i ∈ s.tracker.got
  | .interested => Announced before ∧ .sent .notInterested ∉ before
  | .notInterested => s.tracker.isComplete ∧ .sent .notInterested ∉ before
  | .request index begin length => ∃ spec, length = blockLen spec begin ∧
      Requestable specs count before index spec begin
  | .piece index begin _ => ∃ l spec length, specs[index]? = some spec ∧ index ∈ s.tracker.got ∧
      before = l ++ [.received (.request index begin length) false] ++
        [.read (spec.offset + begin) length]
  | .havePiece index => index ∈ s.tracker.got
  | .unchoke => t.rates = none ∧ ∃ l amChoking, before = l ++ [.received .interested amChoking]
  | .choke => False
  | .cancel _ _ _ => False
  | .keepAlive => False

/-- A task greets its peer with the Bitfield, and every message of it is in its place. -/
structure Conduct (specs : List PieceSpec) (count : ℤ) (s : Session) (t : Task) : Prop where
  greets : t.log = [] ∨ ∃ data rest, t.log = .sent (.bitfield data) :: rest
  proper : ∀ before msg, before ++ [.sent msg] <+: t.log → Proper specs count s t before msg

theorem told_append (log added : List Entry) :
    told count (log ++ added) = added.foldl (toldBy count) (told count log) :=
  List.foldl_append

theorem chokes_append (log added : List Entry) : chokes (log ++ added) = added.foldl chokesBy (chokes log) :=
  List.foldl_append

theorem told_sent (log : List Entry) (msg : Message) : told count (log ++ [.sent msg]) = told count log :=
  told_append log [.sent msg]

theorem chokes_sent (log : List Entry) (msg : Message) : chokes (log ++ [.sent msg]) = chokes log :=
  chokes_append log [.sent msg]

theorem heardBy_cases : heardBy a t = [] ∨
    ∃ msg hint, a = .receives msg hint ∧ heardBy a t = [.received msg t.amChoking] := by
  cases a with
  | receives msg hint => exact Or.inr ⟨msg, hint, rfl, rfl⟩
  | _ => exact Or.inl rfl

/-- What a step says tells nothing of the peer. -/
theorem told_of_worked (h : Worked a s t t') : told count t'.log = told count (t.log ++ heardBy a t) := by
  rcases h.log with hlog | ⟨e, hlog, hadds⟩
  · rw [hlog]
  · rw [hlog, told_append _ [e]]
    cases hadds <;> rfl

theorem chokes_of_worked (h : Worked a s t t') : chokes t'.log = chokes (t.log ++ heardBy a t) := by
  rcases h.log with hlog | ⟨e, hlog, hadds⟩
  · rw [hlog]
  · rw [hlog, chokes_append _ [e]]
    cases hadds <;> rfl

theorem prefix_of_worked (h : Worked a s t t') : t.log ++ heardBy a t <+: t'.log := by
  rcases h.log with hlog | ⟨e, hlog, -⟩
  · rw [hlog]
  · rw [hlog]
    apply List.prefix_append

theorem mem_log {e : Entry} (h : Worked a s t t') (he : e ∈ t.log) : e ∈ t'.log :=
  (prefix_of_worked h).subset (List.mem_append_left _ he)

/-- A message of the log was there before, or is said now. -/
theorem sent_cases {msg : Message} (h : Worked a s t t') (hm : .sent msg ∈ t'.log) :
    .sent msg ∈ t.log ∨ Says a s t t' (.sent msg) := by
  have hold : .sent msg ∈ t.log ++ heardBy a t → .sent msg ∈ t.log := fun hm => by
    rcases List.mem_append.mp hm with hm | hm
    · exact hm
    · exact absurd hm not_sent_heardBy
  rcases h.log with hlog | ⟨e, hlog, hadds⟩
  · rw [hlog] at hm
    exact Or.inl (hold hm)
  · rw [hlog] at hm
    rcases List.mem_append.mp hm with hm | hm
    · exact Or.inl (hold hm)
    · obtain rfl := List.mem_singleton.mp hm
      exact Or.inr hadds

/-- A message at the end of a prefix of the log was there before, or is said now. -/
theorem prefix_cases {msg : Message} (h : Worked a s t t')
    (hlead : before ++ [.sent msg] <+: t'.log) :
    before ++ [.sent msg] <+: t.log ∨
      before = t.log ++ heardBy a t ∧ t'.log = before ++ [.sent msg] ∧ Says a s t t' (.sent msg) := by
  have hold : before ++ [.sent msg] <+: t.log ++ heardBy a t → before ++ [.sent msg] <+: t.log := by
    intro hheard
    rcases heardBy_cases (a := a) (t := t) with hnone | ⟨m, hint, -, hone⟩
    · rw [hnone, List.append_nil] at hheard
      exact hheard
    · rw [hone] at hheard
      rcases List.prefix_concat_iff.mp hheard with heq | hheard
      · cases List.singleton_inj.mp (List.append_inj' heq rfl).2
      · exact hheard
  rcases h.log with hlog | ⟨e, hlog, hadds⟩
  · rw [hlog] at hlead
    exact Or.inl (hold hlead)
  · rw [hlog] at hlead
    rcases List.prefix_concat_iff.mp hlead with heq | hheard
    · obtain ⟨rfl, hlast⟩ := List.append_inj' heq rfl
      obtain rfl := List.singleton_inj.mp hlast
      exact Or.inr ⟨rfl, hlog, hadds⟩
    · exact Or.inl (hold hheard)

theorem heardBy_of_point (hstep : taskStep sha1 kind a s t = some (s', t')) (hp : t.point ≠ .receive) :
    heardBy a t = [] := by
  rcases heardBy_cases (a := a) (t := t) with hnone | ⟨msg, hint, rfl, -⟩
  · exact hnone
  · exact absurd (point_of_receives hstep) hp

theorem next_block {spec : PieceSpec} {n offset start : ℕ}
    (h : (offset, blockLen spec offset) ∈ blocksFrom spec n start)
    (hn : spec.length.toNat ≤ n + start)
    (hlt : ((offset + blockLen spec offset : ℕ) : ℤ) < spec.length) :
    (offset + blockLen spec offset, blockLen spec (offset + blockLen spec offset)) ∈
      blocksFrom spec n start := by
  induction n generalizing start with
  | zero => cases h
  | succ n ih =>
    rw [blocksFrom] at h ⊢
    by_cases hstart : (start : ℤ) < spec.length
    · rw [if_pos hstart] at h ⊢
      obtain ⟨hpos, -, -⟩ := blockLen_spec hstart
      rcases List.mem_cons.mp h with heq | h
      · obtain rfl : offset = start := congrArg Prod.fst heq
        rw [blocksFrom_succ hlt (by omega)]
        exact List.mem_cons_of_mem _ List.mem_cons_self
      · exact List.mem_cons_of_mem _ (ih h (by omega))
    · rw [if_neg hstart] at h
      cases h

structure Listed (specs : List PieceSpec) (count : ℤ) (s : Session) : Prop where
  specs_eq : s.tracker.specs = specs
  count_eq : s.tracker.pieceCount = count
  length : specs.length = count.toNat
  inside : s.tracker.got ⊆ Finset.range specs.length

theorem Listed.had (h : Listed specs count s) (hcomplete : s.tracker.isComplete) {index : ℕ}
    {spec : PieceSpec} (hat : specs[index]? = some spec) : index ∈ s.tracker.got := by
  have hlt : index < specs.length := (List.getElem?_eq_some_iff.mp hat).1
  have heq : s.tracker.got = Finset.range specs.length := by
    apply Finset.eq_of_subset_of_card_le h.inside
    rw [Finset.card_range, h.length]
    rw [Tracker.isComplete, h.count_eq] at hcomplete
    omega
  rw [heq]
  exact Finset.mem_range.mpr hlt

theorem Listed.complete_mono (h' : Listed specs count s') (hcount : s.tracker.pieceCount = count)
    (hsub : s.tracker.got ⊆ s'.tracker.got) (hcomplete : s.tracker.isComplete) :
    s'.tracker.isComplete := by
  have hle := Finset.card_le_card hsub
  have hmost := Finset.card_le_card h'.inside
  rw [Finset.card_range, h'.length] at hmost
  rw [Tracker.isComplete, hcount] at hcomplete
  rw [Tracker.isComplete, h'.count_eq]
  omega

/-- A task without a piece takes none when nothing is missing. -/
theorem Listed.free (h : Listed specs count s) (hcomplete : s.tracker.isComplete)
    (hfree : t.currentPiece = none) (hasks : requesting t.point = false) (hworked : Transfer a s t t') :
    t'.currentPiece = none := by
  cases hworked with
  | keeps hkept => exact hkept.same.currentPiece.trans hfree
  | drops _ hnone _ => exact hnone
  | learns _ hsame _ _ => exact hsame.currentPiece.trans hfree
  | hears _ hsame _ _ => exact hsame.currentPiece.trans hfree
  | starts _ hlacks hat _ _ _ _ _ _ => exact absurd (h.had hcomplete (h.specs_eq ▸ hat)) hlacks
  | asks hp _ _ _ _ =>
    rw [hp] at hasks
    cases hasks
  | gets _ hcur _ _ _ => cases hfree.symm.trans hcur

/-- The request that a task has just sent, and the read that it is at, are in the log. -/
structure Minds (sha1 : Bytes → Bytes) (specs : List PieceSpec) (count : ℤ) (s : Session) (t : Task) :
    Prop where
  task : TaskOk sha1 specs t
  conduct : Conduct specs count s t
  starting : t.point = .starting → t.log = []
  quiet : t.log = [] → t.point = .starting ∨ stage t.point = .gone
  alone : t.point = .sendBitfield → ∃ data, t.log = [.sent (.bitfield data)]
  pieces : t.peerPieces = told count t.log
  choking : t.peerChoking = chokes t.log
  interest : t.amInterested = true ∨ t.point = .sendInterested → .sent .interested ∈ t.log
  wanted : t.peerPieces = ∅ ∨ s.tracker.isComplete ∨ .sent .interested ∈ t.log
  asking : ∀ spec offset, t.point = .sendRequest spec offset → ∃ before index,
    t.log = before ++ [.sent (.request index offset (blockLen spec offset))] ∧
      spec.index.toNat = index ∧ Requestable specs count before index spec offset
  reading : ∀ index begin length offset data, t.point = .read index begin length offset data →
    ∃ l spec, specs[index]? = some spec ∧ index ∈ s.tracker.got ∧
      t.log = l ++ [.received (.request index begin length) false] ++ [.read (spec.offset + begin) length]
  written : ∀ index spec, stage t.point = .written index spec → index ∈ s.tracker.got
  finished : t.point = .emitCompleted ∨ .sent .notInterested ∈ t.log →
    s.tracker.isComplete ∧ t.currentPiece = none
  once : t.point = .emitCompleted → .sent .notInterested ∉ t.log

theorem minds_start (sha1 : Bytes → Bytes) (specs : List PieceSpec) (count : ℤ) (s : Session)
    (addr : Address) (given : Bool) (rates : Option Rates) :
    Minds sha1 specs count s (newTask addr given rates) where
  task := newTask_taskOk specs addr given rates
  conduct := ⟨Or.inl rfl, fun before msg hlead => by simp [newTask] at hlead⟩
  starting _ := rfl
  quiet _ := Or.inl rfl
  alone hp := by cases hp
  pieces := rfl
  choking := rfl
  interest h := by rcases h with h | h <;> cases h
  wanted := Or.inl rfl
  asking _ _ hp := by cases hp
  reading _ _ _ _ _ hp := by cases hp
  written _ _ hp := by cases hp
  finished h := by
    rcases h with h | h
    · cases h
    · simp [newTask] at h
  once hp := by cases hp

theorem Proper.mono {msg : Message} (h : Proper specs count s t before msg)
    (hsub : s.tracker.got ⊆ s'.tracker.got)
    (hcomplete : s.tracker.isComplete → s'.tracker.isComplete)
    (hrates : t.rates = none → t'.rates = none) : Proper specs count s' t' before msg := by
  cases msg with
  | bitfield data => exact ⟨h.1, fun i hi => hsub (h.2 i hi)⟩
  | interested => exact h
  | notInterested => exact ⟨hcomplete h.1, h.2⟩
  | request index begin length => exact h
  | piece index begin block =>
    obtain ⟨l, spec, length, hat, hgot, hbefore⟩ := h
    exact ⟨l, spec, length, hat, hsub hgot, hbefore⟩
  | havePiece index => exact hsub h
  | unchoke => exact ⟨hrates h.1, h.2⟩
  | choke => exact h.elim
  | cancel index begin length => exact h.elim
  | keepAlive => exact h.elim

/-- Pieces that others add change nothing. -/
theorem Minds.mono (h : Minds sha1 specs count s t) (hsub : s.tracker.got ⊆ s'.tracker.got)
    (hcomplete : s.tracker.isComplete → s'.tracker.isComplete) : Minds sha1 specs count s' t where
  task := h.task
  conduct := ⟨h.conduct.greets, fun before msg hlead =>
    Proper.mono (h.conduct.proper before msg hlead) hsub hcomplete id⟩
  starting := h.starting
  quiet := h.quiet
  alone := h.alone
  pieces := h.pieces
  choking := h.choking
  interest := h.interest
  wanted := h.wanted.imp_right (Or.imp_left hcomplete)
  asking := h.asking
  reading index begin length offset data hp := by
    obtain ⟨l, spec, hat, hgot, hlog⟩ := h.reading index begin length offset data hp
    exact ⟨l, spec, hat, hsub hgot, hlog⟩
  written index spec hp := hsub (h.written index spec hp)
  finished hp := (h.finished hp).imp_left hcomplete
  once := h.once

/-- Until the Bitfield is sent nothing is logged. -/
theorem starting_log (hp : t.point = .starting) (hstep : taskStep sha1 kind a s t = some (s', t')) :
    t'.log = t.log ∧ (t'.point = .starting ∨ stage t'.point = .gone) ∨
      t'.point = .sendBitfield ∧ ∃ data, t'.log = t.log ++ [.sent (.bitfield data)] := by
  cases a with
  | starts =>
    simp only [taskStep, hp] at hstep
    split at hstep
    · obtain ⟨-, rfl⟩ := Prod.mk.inj (Option.some.inj hstep)
      exact Or.inl ⟨rfl, Or.inr rfl⟩
    · next data _ =>
      obtain ⟨-, rfl⟩ := Prod.mk.inj (Option.some.inj hstep)
      exact Or.inr ⟨rfl, data, rfl⟩
  | raises =>
    simp only [taskStep, hp] at hstep
    obtain ⟨-, rfl⟩ := Prod.mk.inj (Option.some.inj hstep)
    exact Or.inl ⟨rfl, Or.inr rfl⟩
  | rechokes amChoking =>
    obtain ⟨rates, -, -, rfl⟩ := rechokes_cases hstep
    exact Or.inl ⟨rfl, Or.inl hp⟩
  | _ => simp [taskStep, resume, cancelStep, hp] at hstep

/-- A task that has left its loop says nothing. -/
theorem gone_log (hp : stage t.point = .gone) (hstep : taskStep sha1 kind a s t = some (s', t')) :
    t'.log = t.log ∧ stage t'.point = .gone := by
  cases a with
  | rechokes amChoking =>
    obtain ⟨rates, -, -, rfl⟩ := rechokes_cases hstep
    exact ⟨rfl, hp⟩
  | returns hint =>
    rcases stage_eq_gone.mp hp with hp | hp
    · simp only [taskStep, resume, hp] at hstep
      obtain ⟨-, rfl⟩ := Prod.mk.inj (Option.some.inj hstep)
      exact ⟨rfl, rfl⟩
    · simp [taskStep, resume, hp] at hstep
  | raises =>
    rcases stage_eq_gone.mp hp with hp | hp
    · simp only [taskStep, hp] at hstep
      obtain ⟨-, rfl⟩ := Prod.mk.inj (Option.some.inj hstep)
      exact ⟨rfl, rfl⟩
    · simp [taskStep, hp] at hstep
  | _ =>
    rcases stage_eq_gone.mp hp with hp | hp
    · simp [taskStep, cancelStep, hp] at hstep
    · simp [taskStep, cancelStep, hp] at hstep

theorem greeting_log (hp : t.point = .sendBitfield)
    (hstep : taskStep sha1 kind a s t = some (s', t')) : t'.log = t.log ∧ t'.point ≠ .starting := by
  cases a with
  | returns hint =>
    simp only [taskStep, resume, hp] at hstep
    obtain ⟨-, rfl⟩ := Prod.mk.inj (Option.some.inj hstep)
    exact ⟨rfl, by simp [Task.goto]⟩
  | raises =>
    simp only [taskStep, hp] at hstep
    obtain ⟨-, rfl⟩ := Prod.mk.inj (Option.some.inj hstep)
    exact ⟨rfl, by simp [Task.goto]⟩
  | rechokes amChoking =>
    obtain ⟨rates, -, -, rfl⟩ := rechokes_cases hstep
    exact ⟨rfl, by simp [hp]⟩
  | _ => simp [taskStep, cancelStep, hp] at hstep

theorem starting_of_step (h : Minds sha1 specs count s t)
    (hstep : taskStep sha1 kind a s t = some (s', t')) (hp' : t'.point = .starting) : t'.log = [] := by
  have hfresh : stage t.point = .fresh := by
    apply fresh_turn (turn_of_step hstep)
    rw [hp']
    rfl
  cases hpoint : t.point with
  | starting =>
    rcases starting_log hpoint hstep with ⟨hlog, -⟩ | ⟨hsends, -⟩
    · exact hlog.trans (h.starting hpoint)
    · cases hp'.symm.trans hsends
  | sendBitfield => exact absurd hp' (greeting_log hpoint hstep).2
  | _ =>
    rw [hpoint] at hfresh
    cases hfresh

theorem alone_of_step (h : Minds sha1 specs count s t) (hstep : taskStep sha1 kind a s t = some (s', t'))
    (hp : t'.point = .sendBitfield) : ∃ data, t'.log = [.sent (.bitfield data)] := by
  have hfresh : stage t.point = .fresh := by
    apply fresh_turn (turn_of_step hstep)
    rw [hp]
    rfl
  cases hpoint : t.point with
  | starting =>
    rcases starting_log hpoint hstep with ⟨-, hstays | hgone⟩ | ⟨-, data, hlog⟩
    · cases hp.symm.trans hstays
    · rw [hp] at hgone
      cases hgone
    · rw [h.starting hpoint] at hlog
      exact ⟨data, hlog⟩
  | sendBitfield =>
    rw [(greeting_log hpoint hstep).1]
    exact h.alone hpoint
  | _ =>
    rw [hpoint] at hfresh
    cases hfresh

/-- Nothing is logged before the task greets its peer, or when it leaves without it. -/
theorem quiet_of_step (h : Minds sha1 specs count s t) (hstep : taskStep sha1 kind a s t = some (s', t'))
    (hlog : t'.log = []) : t'.point = .starting ∨ stage t'.point = .gone := by
  have hnone : t.log = [] := by
    have hlead := prefix_of_worked (worked_of_step hstep)
    rw [hlog, List.prefix_nil] at hlead
    exact (List.append_eq_nil_iff.mp hlead).1
  rcases h.quiet hnone with hp | hp
  · rcases starting_log hp hstep with ⟨-, hpoint⟩ | ⟨-, data, hsent⟩
    · exact hpoint
    · rw [hnone, hlog] at hsent
      cases hsent
  · exact Or.inr (gone_log hp hstep).2

theorem havePiece_step {index hint : ℕ}
    (hstep : taskStep sha1 kind (.receives (.havePiece index) hint) s t = some (s', t')) :
    t'.peerPieces = insert index t.peerPieces := by
  have hp := point_of_receives hstep
  simp only [taskStep, hp, onMessage, announced] at hstep
  split at hstep
  · obtain ⟨-, rfl⟩ := Prod.mk.inj (Option.some.inj hstep)
    rfl
  · obtain ⟨-, rfl⟩ := Prod.mk.inj (Option.some.inj hstep)
    rfl

theorem pieces_of_step (hlisted : Listed specs count s) (h : Minds sha1 specs count s t)
    (hstep : taskStep sha1 kind a s t = some (s', t')) : t'.peerPieces = told count t'.log := by
  have hworked := worked_of_step hstep
  have hsame : (∀ data hint, a ≠ .receives (.bitfield data) hint) →
      (∀ index hint, a ≠ .receives (.havePiece index) hint) → t'.peerPieces = t.peerPieces := by
    intro hbitfield hhave
    rcases peerPieces_cases hworked.transfer with heq | ⟨data, hint, rfl⟩ | ⟨index, hint, rfl⟩
    · exact heq
    · exact absurd rfl (hbitfield data hint)
    · exact absurd rfl (hhave index hint)
  rw [told_of_worked hworked, told_append, ← h.pieces]
  cases a with
  | receives msg hint =>
    cases msg with
    | bitfield data =>
      rw [(bitfield_step hstep).1, hlisted.count_eq]
      rfl
    | havePiece index => exact havePiece_step hstep
    | _ => exact hsame (fun _ _ heq => by cases heq) fun _ _ heq => by cases heq
  | _ => exact hsame (fun _ _ heq => by cases heq) fun _ _ heq => by cases heq

theorem choking_of_step (h : Minds sha1 specs count s t)
    (hstep : taskStep sha1 kind a s t = some (s', t')) : t'.peerChoking = chokes t'.log := by
  have hworked := worked_of_step hstep
  rw [chokes_of_worked hworked]
  rcases hworked.choking with hafter | ⟨hp, hchoking⟩
  · rw [hafter, chokes_append, ← h.choking]
    cases a with
    | receives msg hint => cases msg <;> rfl
    | _ => rfl
  · obtain ⟨data, hlog⟩ := h.alone hp
    rw [heardBy_of_point hstep (by rw [hp]; simp), hlog, hchoking]
    rfl

theorem interest_of_step (h : Minds sha1 specs count s t)
    (hstep : taskStep sha1 kind a s t = some (s', t'))
    (hinterest : t'.amInterested = true ∨ t'.point = .sendInterested) :
    .sent .interested ∈ t'.log := by
  have hworked := worked_of_step hstep
  rcases hinterest with hi | hp
  · exact mem_log hworked (h.interest (hworked.interest hi))
  · rcases hworked.interested hp with hbefore | hlog
    · exact mem_log hworked (h.interest (Or.inr hbefore))
    · rw [hlog]
      exact List.mem_append_right _ (List.mem_singleton_self _)

/-- When the peer has something, interest is expressed, or nothing is missing. -/
theorem wanted_of_step (h : Minds sha1 specs count s t)
    (hcomplete : s.tracker.isComplete → s'.tracker.isComplete)
    (hstep : taskStep sha1 kind a s t = some (s', t')) :
    t'.peerPieces = ∅ ∨ s'.tracker.isComplete ∨ .sent .interested ∈ t'.log := by
  have hworked := worked_of_step hstep
  have hkept : t'.peerPieces = t.peerPieces →
      t'.peerPieces = ∅ ∨ s'.tracker.isComplete ∨ .sent .interested ∈ t'.log := by
    intro heq
    rw [heq]
    exact h.wanted.imp_right (Or.imp hcomplete (mem_log hworked))
  have hsent : t'.log = t.log ++ heardBy a t ++ [.sent .interested] → .sent .interested ∈ t'.log := by
    intro hlog
    rw [hlog]
    exact List.mem_append_right _ (List.mem_singleton_self _)
  cases hworked.transfer with
  | learns _ _ _ hstated => exact Or.inr (hstated.imp hcomplete hsent)
  | hears _ _ _ hstated =>
    rcases hstated with hc | hi | hlog
    · exact Or.inr (Or.inl (hcomplete hc))
    · exact Or.inr (Or.inr (mem_log hworked (h.interest (Or.inl hi))))
    · exact Or.inr (Or.inr (hsent hlog))
  | keeps hk => exact hkept hk.same.peerPieces
  | drops hpieces _ _ => exact hkept hpieces
  | starts _ _ _ hpieces _ _ _ _ _ => exact hkept hpieces
  | asks _ hsame _ _ _ => exact hkept hsame.peerPieces
  | gets _ _ hsame _ _ => exact hkept hsame.peerPieces

/-- A request that follows upon another one of the same piece. -/
theorem Requestable.next {index offset : ℕ} {spec : PieceSpec}
    (h : Requestable specs count before index spec offset)
    (hlt : ((offset + blockLen spec offset : ℕ) : ℤ) < spec.length) :
    Requestable specs count (before ++ [.sent (.request index offset (blockLen spec offset))]) index
      spec (offset + blockLen spec offset) where
  listed := h.listed
  told := by
    rw [told_sent]
    exact h.told
  unchoked := by
    rw [chokes_sent]
    exact h.unchoked
  interested := List.mem_append_left _ h.interested
  unfinished := by simpa using h.unfinished
  block := next_block h.block (Nat.le_refl _) hlt
  follows := Or.inr ⟨before, (offset, blockLen spec offset), h.block, rfl, rfl⟩

/-- A first request: the piece is one that the peer has and that is missing. -/
theorem requestable_start {index : ℕ} {spec : PieceSpec} {msg : Message} (hlisted : Listed specs count s)
    (h : Minds sha1 specs count s t) (hstep : taskStep sha1 kind a s t = some (s', t'))
    (hpeer : index ∈ t.peerPieces) (hlacks : index ∉ s.tracker.got) (hat : specs[index]? = some spec)
    (hpieces : t'.peerPieces = t.peerPieces) (hfree : t'.peerChoking = false) (hlt : 0 < spec.length)
    (hlog : t'.log = t.log ++ heardBy a t ++ [.sent msg]) :
    Requestable specs count (t.log ++ heardBy a t) index spec 0 := by
  have hmissing : ¬ s.tracker.isComplete := fun hc => hlacks (hlisted.had hc hat)
  constructor
  · exact hat
  · rw [← told_sent _ msg, ← hlog, ← pieces_of_step hlisted h hstep, hpieces]
    exact hpeer
  · rw [← chokes_sent _ msg, ← hlog, ← choking_of_step h hstep]
    exact hfree
  · rcases h.wanted with hnone | hc | hm
    · rw [hnone] at hpeer
      cases hpeer
    · exact absurd hc hmissing
    · exact List.mem_append_left _ hm
  · intro hm
    rcases List.mem_append.mp hm with hm | hm
    · exact hmissing (h.finished (Or.inr hm)).1
    · exact not_sent_heardBy hm
  · rw [blocks, blocksFrom_succ (by exact_mod_cast hlt) (by omega)]
    exact List.mem_cons_self
  · exact Or.inl rfl

/-- The request that is on its way is the last entry, and was in its place. -/
theorem asking_of_step {spec : PieceSpec} {offset : ℕ} (hlisted : Listed specs count s)
    (hindex : ∀ (i : ℕ) (spec : PieceSpec), specs[i]? = some spec → spec.index = i)
    (h : Minds sha1 specs count s t) (hstep : taskStep sha1 kind a s t = some (s', t'))
    (hp' : t'.point = .sendRequest spec offset) : ∃ before index,
      t'.log = before ++ [.sent (.request index offset (blockLen spec offset))] ∧
        spec.index.toNat = index ∧ Requestable specs count before index spec offset := by
  by_cases hasks : ∃ spec offset, t.point = .sendRequest spec offset
  · obtain ⟨spec₀, offset₀, hp⟩ := hasks
    obtain ⟨before, index, hlog, hnumber, hrequest⟩ := h.asking spec₀ offset₀ hp
    have hraise : a ≠ .raises := by
      rintro rfl
      simp only [taskStep, hp] at hstep
      obtain ⟨-, rfl⟩ := Prod.mk.inj (Option.some.inj hstep)
      cases hp'
    rcases requesting_step hp hraise hstep with rfl | ⟨rates, rfl⟩
    · unfold requestFrom at hp' ⊢
      split at hp'
      · next hlt =>
        obtain ⟨rfl, rfl⟩ := Await.sendRequest.inj hp'
        rw [if_pos hlt]
        refine ⟨t.log, index, ?_, hnumber, ?_⟩
        · rw [← hnumber]
          rfl
        · rw [hlog]
          exact hrequest.next hlt
      · cases hp'
    · obtain ⟨rfl, rfl⟩ := Await.sendRequest.inj (hp.symm.trans hp')
      exact ⟨before, index, hlog, hnumber, hrequest⟩
  · have hnot : requesting t.point = true → False := by
      intro hreq
      cases hp : t.point with
      | sendRequest spec offset => exact hasks ⟨spec, offset, hp⟩
      | _ =>
        rw [hp] at hreq
        cases hreq
    have hworked := worked_of_step hstep
    cases hworked.transfer with
    | keeps hk =>
      have hsame := hk.asking (by rw [hp']; rfl)
      exact absurd ⟨spec, offset, hsame ▸ hp'⟩ hasks
    | asks hp _ _ _ _ => exact absurd ⟨_, _, hp⟩ hasks
    | @starts index spec₀ hpeer hlacks hat hpieces _ _ _ hfree hbegins =>
      rw [hlisted.specs_eq] at hat
      rcases hbegins with ⟨hreq, -⟩ | ⟨hpoint, hlt, hlog⟩
      · rw [hp'] at hreq
        cases hreq
      · obtain ⟨rfl, rfl⟩ := Await.sendRequest.inj (hpoint.symm.trans hp')
        have hnumber : spec₀.index.toNat = index := by
          rw [hindex index spec₀ hat]
          rfl
        rw [requestOf, hnumber] at hlog
        refine ⟨_, index, hlog, hnumber, ?_⟩
        exact requestable_start hlisted h hstep hpeer hlacks hat hpieces hfree hlt hlog
    | drops _ _ hreq => rw [hp'] at hreq; cases hreq
    | learns _ _ hreq _ => rw [hp'] at hreq; cases hreq
    | hears _ _ hreq _ => rw [hp'] at hreq; cases hreq
    | gets _ _ _ hreq _ => rw [hp'] at hreq; cases hreq

/-- A read that is going on answers the Request that came in last. -/
theorem reading_of_step {index begin length : ℕ} {offset : ℤ} {data : Bytes}
    (hlisted : Listed specs count s) (h : Minds sha1 specs count s t)
    (hsub : s.tracker.got ⊆ s'.tracker.got) (hstep : taskStep sha1 kind a s t = some (s', t'))
    (hp' : t'.point = .read index begin length offset data) :
    ∃ l spec, specs[index]? = some spec ∧ index ∈ s'.tracker.got ∧ t'.log = l ++
      [.received (.request index begin length) false] ++ [.read (spec.offset + begin) length] := by
  have hreads : reading t' = true := by
    rw [reading, hp']
  have hkept : ∀ data₀, t.point = .read index begin length offset data₀ → t'.log = t.log →
      ∃ l spec, specs[index]? = some spec ∧ index ∈ s'.tracker.got ∧ t'.log = l ++
        [.received (.request index begin length) false] ++ [.read (spec.offset + begin) length] := by
    intro data₀ hp hlog
    obtain ⟨l, spec, hat, hgot, hl⟩ := h.reading index begin length offset data₀ hp
    exact ⟨l, spec, hat, hsub hgot, hlog.trans hl⟩
  cases logged_of_step hstep with
  | quiet hquiet =>
    rw [hquiet.point] at hreads
    cases hreads
  | stays hlog hpoint => exact hkept data (hpoint ▸ hp') hlog
  | @request index₀ begin₀ length₀ hint spec _ _ _ hgot hat hlog hpoint =>
    obtain ⟨rfl, rfl, rfl, -, -⟩ := Await.read.inj (hpoint.symm.trans hp')
    exact ⟨t.log, spec, hlisted.specs_eq ▸ hat, hsub hgot, hlog⟩
  | fetches hp _ hlog hpoint =>
    obtain ⟨rfl, rfl, rfl, rfl, -⟩ := Await.read.inj (hpoint.symm.trans hp')
    exact hkept _ hp hlog
  | answers _ _ _ hnot =>
    rw [hnot] at hreads
    cases hreads

/-- Once the download is completed, or NotInterested is sent, the session is complete and the task
has no piece. -/
theorem finished_of_step (hlisted : Listed specs count s) (h : Minds sha1 specs count s t)
    (hcomplete : s.tracker.isComplete → s'.tracker.isComplete)
    (hstep : taskStep sha1 kind a s t = some (s', t'))
    (hor : t'.point = .emitCompleted ∨ .sent .notInterested ∈ t'.log) :
    s'.tracker.isComplete ∧ t'.currentPiece = none := by
  have hworked := worked_of_step hstep
  have hgoes : t.point = .emitCompleted ∨ .sent .notInterested ∈ t.log →
      s'.tracker.isComplete ∧ t'.currentPiece = none := by
    intro hbefore
    obtain ⟨hc, hfree⟩ := h.finished hbefore
    refine ⟨hcomplete hc, hlisted.free hc hfree ?_ hworked.transfer⟩
    cases hp : t.point with
    | sendRequest spec offset =>
      obtain ⟨before, index, hlog, -, hrequest⟩ := h.asking spec offset hp
      rcases hbefore with hpoint | hm
      · cases hp.symm.trans hpoint
      · rw [hlog] at hm
        exact absurd (by simpa using hm) hrequest.unfinished
    | _ => rfl
  rcases hor with hp' | hm
  · rcases hworked.completed hp' with hp | ⟨hc, -, hfree⟩
    · exact hgoes (Or.inl hp)
    · exact ⟨hcomplete hc, hfree⟩
  · rcases sent_cases hworked hm with hm | hadds
    · exact hgoes (Or.inr hm)
    · cases hadds with
      | notInterested hp _ => exact hgoes (Or.inl hp)

theorem once_of_step (h : Minds sha1 specs count s t)
    (hstep : taskStep sha1 kind a s t = some (s', t')) (hp' : t'.point = .emitCompleted) :
    .sent .notInterested ∉ t'.log := by
  have hworked := worked_of_step hstep
  intro hm
  rcases sent_cases hworked hm with hm | hadds
  · rcases hworked.completed hp' with hp | ⟨-, hbusy, -⟩
    · exact h.once hp hm
    · have hfree := (h.finished (Or.inr hm)).2
      rcases hbusy with hcur | ⟨index, spec, hstage⟩
      · exact hcur hfree
      · cases hfree.symm.trans (h.task.written index spec hstage).1
  · cases hadds with
    | notInterested _ hpoint => cases hp'.symm.trans hpoint

theorem rates_of_step (hstep : taskStep sha1 kind a s t = some (s', t')) (hrates : t.rates = none) :
    t'.rates = none := by
  have hdecided := (worked_of_step hstep).decided
  have hnone : decided t = none := by
    rw [decided, hrates]
    rfl
  have hafter : decidedAfter a t = none := by
    unfold decidedAfter
    split
    · rw [hnone]; rfl
    · rw [hnone]; rfl
    · rw [hnone]; rfl
    · exact hnone
  rw [hafter] at hdecided
  exact Option.map_eq_none_iff.mp hdecided

theorem proper_of_says {msg : Message} (hlisted : Listed specs count s)
    (hindex : ∀ (i : ℕ) (spec : PieceSpec), specs[i]? = some spec → spec.index = i)
    (h : Minds sha1 specs count s t) (hsub : s.tracker.got ⊆ s'.tracker.got)
    (hcomplete : s.tracker.isComplete → s'.tracker.isComplete)
    (hstep : taskStep sha1 kind a s t = some (s', t')) (hadds : Says a s t t' (.sent msg))
    (hlog : t'.log = t.log ++ heardBy a t ++ [.sent msg]) :
    Proper specs count s' t' (t.log ++ heardBy a t) msg := by
  -- away from the message loop nothing is heard
  have hquiet : t.point ≠ .receive → t.log ++ heardBy a t = t.log := by
    intro hp
    rw [heardBy_of_point hstep hp, List.append_nil]
  cases hadds with
  | bitfield hp _ hbuilt =>
    rw [hquiet (by rw [hp]; simp), h.starting hp]
    exact ⟨rfl, fun i hi => hsub (built_pieces hbuilt hi)⟩
  | interested hmissing hmsg =>
    refine ⟨?_, fun hm => ?_⟩
    · rcases hmsg with ⟨data, hint, rfl⟩ | ⟨index, hint, rfl⟩
      · exact ⟨t.log, _, t.amChoking, rfl, Or.inl ⟨data, rfl⟩⟩
      · exact ⟨t.log, _, t.amChoking, rfl, Or.inr ⟨index, rfl⟩⟩
    · rcases List.mem_append.mp hm with hm | hm
      · exact hmissing (h.finished (Or.inr hm)).1
      · exact not_sent_heardBy hm
  | unchoke ha hrates =>
    subst ha
    exact ⟨rates_of_step hstep hrates, t.log, t.amChoking, rfl⟩
  | @request spec offset hp' _ =>
    obtain ⟨before, index, hlast, hnumber, hrequest⟩ := asking_of_step hlisted hindex h hstep hp'
    obtain ⟨rfl, -⟩ := List.append_inj' (hlog.symm.trans hlast) rfl
    rw [requestOf, hnumber]
    exact ⟨spec, rfl, hrequest⟩
  | piece hp _ _ =>
    rw [hquiet (by rw [hp]; simp)]
    obtain ⟨l, spec, hat, hgot, hl⟩ := h.reading _ _ _ _ _ hp
    exact ⟨l, spec, _, hat, hsub hgot, hl⟩
  | havePiece hp => exact hsub (h.written _ _ (by rw [hp]; rfl))
  | notInterested hp _ =>
    rw [hquiet (by rw [hp]; simp)]
    exact ⟨hcomplete (h.finished (Or.inl hp)).1, h.once hp⟩

theorem conduct_of_step (hlisted : Listed specs count s)
    (hindex : ∀ (i : ℕ) (spec : PieceSpec), specs[i]? = some spec → spec.index = i)
    (h : Minds sha1 specs count s t) (hsub : s.tracker.got ⊆ s'.tracker.got)
    (hcomplete : s.tracker.isComplete → s'.tracker.isComplete)
    (hstep : taskStep sha1 kind a s t = some (s', t')) : Conduct specs count s' t' where
  greets := by
    have hworked := worked_of_step hstep
    rcases h.conduct.greets with hnone | ⟨data, rest, hlog⟩
    · rcases h.quiet hnone with hp | hp
      · rcases starting_log hp hstep with ⟨hlog, -⟩ | ⟨-, data, hlog⟩
        · exact Or.inl (hlog.trans hnone)
        · rw [hnone] at hlog
          exact Or.inr ⟨data, [], hlog⟩
      · exact Or.inl ((gone_log hp hstep).1.trans hnone)
    · obtain ⟨more, hmore⟩ := prefix_of_worked hworked
      refine Or.inr ⟨data, rest ++ heardBy a t ++ more, ?_⟩
      rw [← hmore, hlog, List.cons_append, List.cons_append]
  proper before msg hlead := by
    rcases prefix_cases (worked_of_step hstep) hlead with hold | ⟨rfl, hlog, hadds⟩
    · exact Proper.mono (h.conduct.proper before msg hold) hsub hcomplete (rates_of_step hstep)
    · exact proper_of_says hlisted hindex h hsub hcomplete hstep hadds hlog

theorem Minds.step (hlisted : Listed specs count s)
    (hindex : ∀ (i : ℕ) (spec : PieceSpec), specs[i]? = some spec → spec.index = i)
    (h : Minds sha1 specs count s t) (hcomplete : s.tracker.isComplete → s'.tracker.isComplete)
    (hstep : taskStep sha1 kind a s t = some (s', t')) : Minds sha1 specs count s' t' := by
  have hturn := turn_of_step hstep
  have hsub := hturn.got_subset
  constructor
  · have htask := h.task
    rw [← hlisted.specs_eq] at htask ⊢
    exact (hturn.taskOk htask).2
  · exact conduct_of_step hlisted hindex h hsub hcomplete hstep
  · exact starting_of_step h hstep
  · exact quiet_of_step h hstep
  · exact alone_of_step h hstep
  · exact pieces_of_step hlisted h hstep
  · exact choking_of_step h hstep
  · exact interest_of_step h hstep
  · exact wanted_of_step h hcomplete hstep
  · exact fun spec offset hp' => asking_of_step hlisted hindex h hstep hp'
  · exact fun index begin length offset data hp' => reading_of_step hlisted h hsub hstep hp'
  · intro index spec hstage
    rcases hturn.written hstage with hbefore | hgot
    · exact hsub (h.written index spec hbefore)
    · exact hgot
  · exact finished_of_step hlisted h hcomplete hstep
  · exact once_of_step h hstep

theorem Listed.undisturbed (h : Listed specs count s) (hs : Undisturbed s s') :
    Listed specs count s' where
  specs_eq := hs.marks.specs.trans h.specs_eq
  count_eq := hs.marks.pieceCount.trans h.count_eq
  length := h.length
  inside := by
    rw [hs.marks.got]
    exact h.inside

theorem Listed.markHave {index : ℕ} {spec : PieceSpec} (h : Listed specs count s)
    (hat : specs[index]? = some spec) :
    Listed specs count { s with tracker := s.tracker.markHave index } where
  specs_eq := h.specs_eq
  count_eq := h.count_eq
  length := h.length
  inside := by
    apply Finset.insert_subset
    · exact Finset.mem_range.mpr (List.getElem?_eq_some_iff.mp hat).1
    · exact h.inside

theorem Listed.turn (h : Listed specs count s) (hok : TaskOk sha1 specs t)
    (hturn : Turn sha1 kind a s t s' t') : Listed specs count s' := by
  rcases hturn.effect with hs | ⟨index, spec, assembled, hp, ⟨k, byte, -, rfl⟩ | rfl⟩
  · exact h.undisturbed hs
  · exact ⟨h.specs_eq, h.count_eq, h.length, h.inside⟩
  · have hat := (hok.writing index spec assembled (by rw [hp]; rfl)).2.1
    have hmarked := h.markHave hat
    exact ⟨hmarked.specs_eq, hmarked.count_eq, hmarked.length, hmarked.inside⟩

def Scanned (specs : List PieceSpec) (st : Starter) : Prop :=
  ∀ index spec data todo, st.point = .read index spec data todo → specs[index]? = some spec

variable {st st' : Starter}

theorem Listed.start {b : StartAction} (h : Listed specs count s) (hscanned : Scanned specs st)
    (hstep : startStep sha1 b s st = some (s', st')) : Listed specs count s' ∧ Scanned specs st' := by
  have hscan : ∀ {s₁ : Session} {todo : List ℕ}, Listed specs count s₁ →
      scanFrom s₁ st todo = (s', st') → Listed specs count s' ∧ Scanned specs st' := by
    intro s₁ todo h₁ heq
    obtain ⟨hs, hp⟩ : Undisturbed s₁ (scanFrom s₁ st todo).1 ∧ ProcOk sha1 (fun _ => []) specs
      (scanFrom s₁ st todo).1 (.starter (scanFrom s₁ st todo).2) := scanFrom_spec h₁.specs_eq
    rw [heq] at hs hp
    refine ⟨h₁.undisturbed hs, fun index spec data todo hread => ?_⟩
    simp only [ProcOk, hread] at hp
    exact hp.1
  cases startTurn_of_step hstep with
  | ends hs hst =>
    rw [hs, hst]
    exact ⟨h, fun _ _ _ _ hread => by cases hread⟩
  | checks _ heq =>
    obtain ⟨hs, hp⟩ := checkResume_spec s st
    rw [heq] at hs hp
    refine ⟨h.undisturbed hs, fun _ _ _ _ hread => ?_⟩
    rcases hp with hp | ⟨todo, hp⟩
    · cases hp.symm.trans hread
    · cases hp.symm.trans hread
  | scans todo _ heq => exact hscan h heq
  | marks hpoint _ heq => exact hscan (h.markHave (hscanned _ _ _ _ hpoint)) heq
  | fetches hpoint _ hs hst =>
    rw [hs, hst]
    refine ⟨h, fun index spec data todo hread => ?_⟩
    obtain ⟨rfl, rfl, -, -⟩ := StartPoint.read.inj hread
    exact hscanned _ _ _ _ hpoint

def ProcMinds (sha1 : Bytes → Bytes) (specs : List PieceSpec) (count : ℤ) (s : Session) : Proc → Prop
  | .peer t => Minds sha1 specs count s t
  | .starter st => Scanned specs st

theorem minds_of_fresh {p : Proc} (h : Fresh p) : ProcMinds sha1 specs count s p := by
  cases p with
  | peer t =>
    obtain ⟨addr, given, rates, rfl⟩ := h
    exact minds_start sha1 specs count s addr given rates
  | starter st =>
    have hp : st.point = .starting := h
    intro index spec data todo hread
    cases hp.symm.trans hread

/-- In every run, whatever the peers send and wherever a task fails or is cancelled, a task greets
its peer with the Bitfield, asks for the blocks of missing pieces in order while its peer has them
and does not choke, and sends nothing else but what its peer asked for and what has become true. -/
theorem conduct_of_reach {pieceLength totalLength : ℤ} {raw storage : Bytes} {tr : Tracker}
    {c : Config Session Proc} (htr : init pieceLength totalLength raw = some tr)
    (hreach : Reach (program sha1 kind) Spawning ⟨newSession tr storage, []⟩ c)
    (ht : .peer t ∈ c.procs) : Conduct tr.specs tr.pieceCount c.shared t := by
  have hindex : ∀ (i : ℕ) (spec : PieceSpec), tr.specs[i]? = some spec → spec.index = i :=
    fun i spec hat => init_index htr hat
  have hboth := hreach.rely_guarantee (G := Listed tr.specs tr.pieceCount)
    (L := ProcMinds sha1 tr.specs tr.pieceCount)
    (R := fun s s' => s.tracker.got ⊆ s'.tracker.got ∧
      (s.tracker.isComplete → s'.tracker.isComplete)) ?_ (fun p hp => by cases hp)
    (fun c p _ hfresh => minds_of_fresh hfresh) ?_ ?_
  · exact (hboth.2 _ ht).conduct
  · refine ⟨rfl, rfl, specs_length htr, ?_⟩
    rw [show (newSession tr storage).tracker.got = ∅ from (specs_eq_of_init htr).2.2.2.1]
    exact Finset.empty_subset _
  · intro c i b p s p' _ _ hlisted hminds hstep
    cases p with
    | peer t =>
      obtain ⟨a, t', -, rfl, htask⟩ := program_peer hstep
      have hminds : Minds sha1 tr.specs tr.pieceCount c.shared t := hminds
      have hturn := turn_of_step htask
      have hlisted' := hlisted.turn hminds.task hturn
      have hcomplete := hlisted'.complete_mono hlisted.count_eq hturn.got_subset
      exact ⟨hlisted', hminds.step hlisted hindex hcomplete htask, hturn.got_subset, hcomplete⟩
    | starter st =>
      obtain ⟨b, st', -, rfl, hstart⟩ := program_starter hstep
      obtain ⟨hlisted', hscanned⟩ := hlisted.start hminds hstart
      have hsub := start_got_subset hstart
      exact ⟨hlisted', hscanned, hsub, hlisted'.complete_mono hlisted.count_eq hsub⟩
  · intro s s' p _ hR hminds
    cases p with
    | peer t => exact Minds.mono hminds hR.1 hR.2
    | starter st => exact hminds

/-- A peer announces a piece of two blocks and unchokes. -/
def inviting : List (Move Proc SessionAction) :=
  [.spawn (.peer (newTask ⟨[127, 0, 0, 1], 6881⟩ true none)), .act 0 (.peer .starts),
    .act 0 (.peer (.returns 0)), .act 0 (.peer (.receives (.bitfield [128]) 0)),
    .act 0 (.peer (.returns 0)), .act 0 (.peer (.receives .unchoke 0)), .act 0 (.peer (.returns 0)),
    .act 0 (.peer (.returns 0))]

theorem conduct_of_reach_inviting :
    ∃ tr c t, init 20000 20000 (List.replicate 20 7) = some tr ∧
      run (program id .files) ⟨newSession tr [], []⟩ inviting = some c ∧ .peer t ∈ c.procs ∧
      t.log = [.sent (.bitfield [0]), .received (.bitfield [128]) false, .sent .interested,
        .received .unchoke false, .sent (.request 0 0 16384), .sent (.request 0 16384 3616)] ∧
      Conduct tr.specs tr.pieceCount c.shared t := by
  obtain ⟨tr, htr⟩ : ∃ tr, init 20000 20000 (List.replicate 20 7) = some tr := ⟨_, rfl⟩
  obtain ⟨c, hrun, p, hp, hlog⟩ : ∃ c, run (program id .files) ⟨newSession tr [], []⟩ inviting =
      some c ∧ ∃ p ∈ c.procs, logOf p = [.sent (.bitfield [0]), .received (.bitfield [128]) false,
        .sent .interested, .received .unchoke false, .sent (.request 0 0 16384),
        .sent (.request 0 16384 3616)] := by
    obtain rfl := Option.some.inj htr
    exact ⟨_, rfl, by decide +kernel⟩
  have hreach : Reach (program id .files) Spawning ⟨newSession tr [], []⟩ c := by
    refine reach_run (allowed_of_forall fun m hm c => ?_) hrun
    rcases List.mem_cons.mp hm with rfl | hm
    · exact ⟨_, _, _, rfl⟩
    · cases m with
      | spawn p => simp at hm
      | act i a => trivial
  cases p with
  | peer t => exact ⟨tr, c, t, htr, hrun, hp, hlog, conduct_of_reach htr hreach hp⟩
  | starter st => cases hlog

end PeerConduct
