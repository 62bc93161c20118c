import Aiobt.VerifiedPieces
import Aiobt.PeerRuns

/-! # What is sent to a peer is verified

A task reads from the storage only to answer a Request, and what it sends is what it read. -/
namespace ServedPieces

open ByteStrings PieceTracker PeerMessages PieceEngine SessionTasks PieceSearch EngineTurns FlatStore
open InterleavedProcesses VerifiedPieces PeerRuns

variable {sha1 : Bytes → Bytes} {kind : StorageKind} {a : Action} {hint : ℕ} {s s' : Session}
  {t t' t₁ : Task}

def serves : Entry → Bool
  | .received _ _ => false
  | .read _ _ => true
  | .sent (.piece _ _ _) => true
  | .sent _ => false

def reading (t : Task) : Bool :=
  match t.point with
  | .read _ _ _ _ _ => true
  | _ => false

/-- Nothing about pieces is added, and no read is begun. -/
structure Quiet (t t' : Task) : Prop where
  log : ∃ added, t'.log = t.log ++ added ∧ ∀ e ∈ added, serves e = false
  point : reading t' = false

inductive Logged (a : Action) (s : Session) (t t' : Task) : Prop
  | quiet : Quiet t t' → Logged a s t t'
  | stays : t'.log = t.log → t'.point = t.point → Logged a s t t'
  | request {index begin length hint spec} : a = .receives (.request index begin length) hint →
      t.point = .receive → t.amChoking = false → index ∈ s.tracker.got →
      s.tracker.specs[index]? = some spec →
      t'.log = t.log ++ [.received (.request index begin length) false] ++
        [.read (spec.offset + begin) length] →
      t'.point = .read index begin length (spec.offset + begin) [] → Logged a s t t'
  | fetches {index begin length offset data byte} : t.point = .read index begin length offset data →
      fetchByte s.storage offset length data = some byte → t'.log = t.log →
      t'.point = .read index begin length offset (data ++ [byte]) → Logged a s t t'
  | answers {index begin length offset data} : t.point = .read index begin length offset data →
      fetchByte s.storage offset length data = none →
      t'.log = t.log ++ [.sent (.piece index begin data)] → reading t' = false → Logged a s t t'

theorem Quiet.same (hlog : t'.log = t.log) (hpoint : reading t' = false) : Quiet t t' :=
  ⟨⟨[], by rw [hlog, List.append_nil], by simp⟩, hpoint⟩

theorem Quiet.one {e : Entry} (hlog : t'.log = t.log ++ [e]) (he : serves e = false)
    (hpoint : reading t' = false) : Quiet t t' :=
  ⟨⟨[e], hlog, by simpa using he⟩, hpoint⟩

theorem Quiet.trans (h : Quiet t t₁) (k : Quiet t₁ t') : Quiet t t' := by
  obtain ⟨added, hlog, hadded⟩ := h.log
  obtain ⟨more, hmore, hserves⟩ := k.log
  refine ⟨⟨added ++ more, by rw [hmore, hlog, List.append_assoc], fun e he => ?_⟩, k.point⟩
  rcases List.mem_append.mp he with he | he
  · exact hadded e he
  · exact hserves e he

theorem requestFrom_quiet (t : Task) (spec : PieceSpec) (offset : ℕ) :
    Quiet t (requestFrom t spec offset) := by
  unfold requestFrom
  split
  · exact .one rfl rfl rfl
  · exact .same rfl rfl

theorem cleanup_quiet (s : Session) (t : Task) : Quiet t (cleanup s t).2 := .same rfl rfl

theorem nextPiece_quiet (hint : ℕ) (s : Session) (t : Task) : Quiet t (nextPiece hint s t).2 := by
  obtain ⟨tr, eg, started, -, hcases⟩ := nextPiece_cases (Prod.mk.eta (p := nextPiece hint s t)).symm
  rcases hcases with ⟨-, -, hnext⟩ | ⟨idx, spec, -, -, hnext⟩ | ⟨-, -, hnext⟩
  · rw [hnext]
    exact .same rfl rfl
  · rw [hnext]
    have htaken := requestFrom_quiet (t.takePiece idx spec) spec 0
    exact ⟨htaken.log, htaken.point⟩
  · rw [hnext]
    exact cleanup_quiet _ t

theorem finishPiece_quiet (hint : ℕ) (s : Session) (t : Task) : Quiet t (finishPiece hint s t).2 := by
  unfold finishPiece
  split
  · exact .same rfl rfl
  · split
    · exact .same rfl rfl
    · have hdropped := nextPiece_quiet hint s t.dropPiece
      exact ⟨hdropped.log, hdropped.point⟩

theorem onBlock_quiet (hint : ℕ) (s : Session) (t : Task) (index begin : ℕ) (block : Bytes) :
    Quiet t (onBlock sha1 hint s t index begin block).2 := by
  unfold onBlock
  simp only
  split
  · exact .same rfl rfl
  · split
    · split
      · exact .same rfl rfl
      · split
        · exact .same rfl rfl
        · have hfinish := finishPiece_quiet hint
            { s with tracker := s.tracker.markFailed index }
            ({ t with pieceBlocks := setBlock t.pieceBlocks begin block }.countDown block.length)
          exact ⟨hfinish.log, hfinish.point⟩
    · exact .same rfl rfl

theorem announced_quiet (s : Session) (t : Task) (interest : Bool) :
    Quiet t (announced s t interest).2 := by
  unfold announced
  split
  · exact .one rfl rfl rfl
  · exact .same rfl rfl

theorem quiet_of_received {msg : Message} {amChoking : Bool}
    (h : Quiet { t with log := t.log ++ [.received msg amChoking] } t') : Quiet t t' := by
  obtain ⟨added, hlog, hadded⟩ := h.log
  refine ⟨⟨.received msg amChoking :: added, ?_, fun e he => ?_⟩, h.point⟩
  · rw [hlog]
    simp
  · rcases List.mem_cons.mp he with rfl | he
    · rfl
    · exact hadded e he

theorem onMessage_logged {msg : Message} (ha : a = .receives msg hint) (hp : t.point = .receive) :
    Logged a s t (onMessage sha1 hint s t msg).2 := by
  have hquiet : ∀ {t' : Task}, Quiet { t with log := t.log ++ [.received msg t.amChoking] } t' →
      Logged a s t t' := fun h => .quiet (quiet_of_received h)
  cases msg with
  | keepAlive => exact hquiet (.same rfl rfl)
  | bitfield data =>
    refine hquiet ?_
    obtain ⟨hlog, hpoint⟩ := announced_quiet
      { s with
        tracker := s.tracker.updateAvailability (bitfieldToSet data s.tracker.pieceCount) }
      { t with
        log := t.log ++ [.received (.bitfield data) t.amChoking]
        peerPieces := bitfieldToSet data s.tracker.pieceCount }
      true
    exact ⟨hlog, hpoint⟩
  | havePiece index =>
    refine hquiet ?_
    obtain ⟨hlog, hpoint⟩ := announced_quiet
      { s with tracker := s.tracker.updateAvailability {index} }
      { t with
        log := t.log ++ [.received (.havePiece index) t.amChoking]
        peerPieces := insert index t.peerPieces }
      (!t.amInterested)
    exact ⟨hlog, hpoint⟩
  | interested =>
    refine hquiet ?_
    simp only [onMessage]
    split
    · exact .same rfl rfl
    · exact .one rfl rfl rfl
  | notInterested => exact hquiet (.same rfl rfl)
  | choke =>
    refine hquiet ?_
    simp only [onMessage]
    split
    · exact .same rfl rfl
    · exact .same rfl rfl
  | unchoke =>
    refine hquiet ?_
    simp only [onMessage]
    split
    · have h := nextPiece_quiet hint s { t with
        log := t.log ++ [.received .unchoke t.amChoking]
        peerChoking := false }
      exact ⟨h.log, h.point⟩
    · exact .same rfl rfl
  | request index begin length =>
    simp only [onMessage, onRequest]
    split
    · exact hquiet (.same rfl rfl)
    · next hchoking =>
      split
      · next hgot =>
        split
        · exact hquiet (cleanup_quiet _ _)
        · next spec hspec =>
          have hfree : t.amChoking = false := by simpa [Task.amChoking] using hchoking
          refine .request ha hp hfree hgot hspec ?_ rfl
          rw [← hfree]
      · exact hquiet (.same rfl rfl)
  | piece index begin block =>
    refine hquiet ?_
    simp only [onMessage]
    split
    · exact onBlock_quiet hint s _ index begin block
    · exact .same rfl rfl
  | cancel index begin length => exact hquiet (.same rfl rfl)

theorem cancelFrom_quiet (hint : ℕ) (s : Session) (t : Task) (index : ℕ) (spec : PieceSpec)
    (addrs : Finset Address) (offset : ℕ) :
    Quiet t (cancelFrom hint s t index spec addrs offset).2 := by
  unfold cancelFrom
  split
  · exact .same rfl rfl
  · exact finishPiece_quiet hint s t

theorem afterHave_quiet (hint : ℕ) (s : Session) (t : Task) (index : ℕ) (spec : PieceSpec) :
    Quiet t (afterHave hint s t index spec).2 := by
  unfold afterHave
  split
  · exact cancelFrom_quiet hint _ t index spec _ 0
  · exact finishPiece_quiet hint s t

theorem resume_logged (h : resume kind hint s t = some (s', t')) : Logged a s t t' := by
  unfold resume at h
  split at h
  case h_4 spec offset hp =>
    obtain ⟨rfl, rfl⟩ := Prod.mk.inj (Option.some.inj h)
    exact .quiet (requestFrom_quiet t spec _)
  case h_5 index begin length offset data hp =>
    split at h
    · cases h
    · next hover =>
      split at h
      · obtain ⟨rfl, rfl⟩ := Prod.mk.inj (Option.some.inj h)
        exact .quiet (cleanup_quiet s t)
      · obtain ⟨rfl, rfl⟩ := Prod.mk.inj (Option.some.inj h)
        exact .answers hp (not_not.mp hover) rfl rfl
  case h_8 index spec hp =>
    obtain ⟨rfl, rfl⟩ := Prod.mk.inj (Option.some.inj h)
    exact .quiet (.one rfl rfl rfl)
  case h_9 index spec hp =>
    obtain ⟨rfl, rfl⟩ := Prod.mk.inj (Option.some.inj h)
    exact .quiet (afterHave_quiet hint s t index spec)
  case h_10 =>
    obtain ⟨rfl, rfl⟩ := Prod.mk.inj (Option.some.inj h)
    exact .quiet (.one rfl rfl rfl)
  case h_13 => cases h
  all_goals
    obtain ⟨rfl, rfl⟩ := Prod.mk.inj (Option.some.inj h)
    exact .quiet (.same rfl rfl)

theorem logged_of_step (h : taskStep sha1 kind a s t = some (s', t')) : Logged a s t t' := by
  cases a with
  | starts =>
    simp only [taskStep] at h
    split at h
    · split at h
      · obtain ⟨rfl, rfl⟩ := Prod.mk.inj (Option.some.inj h)
        exact .quiet (cleanup_quiet s t)
      · obtain ⟨rfl, rfl⟩ := Prod.mk.inj (Option.some.inj h)
        exact .quiet (.one rfl rfl rfl)
    · cases h
  | receives msg hint =>
    simp only [taskStep] at h
    split at h
    · next hp =>
      obtain ⟨rfl, rfl⟩ := Prod.mk.inj (Option.some.inj h)
      exact onMessage_logged rfl hp
    · cases h
  | returns hint => exact resume_logged h
  | raises =>
    simp only [taskStep] at h
    split at h
    · obtain ⟨rfl, rfl⟩ := Prod.mk.inj (Option.some.inj h)
      exact .quiet (.same rfl rfl)
    · obtain ⟨rfl, rfl⟩ := Prod.mk.inj (Option.some.inj h)
      exact .quiet (.same rfl rfl)
    · cases h
    · obtain ⟨rfl, rfl⟩ := Prod.mk.inj (Option.some.inj h)
      exact .quiet (cleanup_quiet s t)
  | fetches =>
    simp only [taskStep] at h
    split at h
    · next hp =>
      obtain ⟨byte, hbyte, heq⟩ := Option.map_eq_some_iff.mp h
      obtain ⟨rfl, rfl⟩ := Prod.mk.inj heq
      exact .fetches hp hbyte rfl rfl
    · cases h
  | stores k =>
    simp only [taskStep] at h
    split at h
    · obtain ⟨byte, -, heq⟩ := Option.map_eq_some_iff.mp h
      obtain ⟨rfl, rfl⟩ := Prod.mk.inj heq
      exact .stays rfl rfl
    · cases h
  | cancels addr connected hint =>
    simp only [taskStep, cancelStep] at h
    split at h
    · split at h
      · split at h
        · obtain ⟨rfl, rfl⟩ := Prod.mk.inj (Option.some.inj h)
          exact .quiet (.same rfl rfl)
        · rw [← Prod.mk.inj (Option.some.inj h) |>.2]
          exact .quiet (cancelFrom_quiet hint _ t _ _ _ _)
      · cases h
    · cases h
  | rechokes amChoking =>
    simp only [taskStep] at h
    split at h
    · cases h
    · obtain ⟨rfl, rfl⟩ := Prod.mk.inj (Option.some.inj h)
      exact .stays rfl rfl

section
variable (sha1 : Bytes → Bytes) (content : ℕ → Bytes) (specs : List PieceSpec) (got : Finset ℕ)

structure Servable (index begin length : ℕ) (spec : PieceSpec) : Prop where
  had : index ∈ got
  listed : specs[index]? = some spec
  inside : (begin : ℤ) + length ≤ spec.length
  verified : verifyPiece sha1 (content index) spec.hash = true

/-- Each read follows upon a Request for a range of a verified piece that was not choked, and each
Piece that is sent follows upon such a read and holds that range. -/
structure Answers (log : List Entry) : Prop where
  read : ∀ l offset length, l ++ [.read offset length] <+: log →
    ∃ l₀ index begin spec, l = l₀ ++ [.received (.request index begin length) false] ∧
      Servable sha1 content specs got index begin length spec ∧ offset = spec.offset + begin
  piece : ∀ l index begin block, l ++ [.sent (.piece index begin block)] <+: log →
    ∃ l₀ length spec, l = l₀ ++ [.received (.request index begin length) false] ++
        [.read (spec.offset + begin) length] ∧
      Servable sha1 content specs got index begin length spec ∧
      block = flatRead (content index) begin length ∧ block.length = length

/-- A read that is going on has fetched the beginning of the range it was begun for. -/
def ReadOk (t : Task) : Prop :=
  ∀ index begin length offset data, t.point = .read index begin length offset data →
    ∃ l₀ spec, t.log = l₀ ++ [.received (.request index begin length) false] ++
        [.read (spec.offset + begin) length] ∧ offset = spec.offset + begin ∧
      Servable sha1 content specs got index begin length spec ∧
      data = flatRead (content index) begin data.length ∧ data.length ≤ length

end

variable {content : ℕ → Bytes} {specs : List PieceSpec} {got got' : Finset ℕ} {size : ℕ}
  {log : List Entry} {e : Entry}

theorem Servable.mono {index begin length : ℕ} {spec : PieceSpec}
    (h : Servable sha1 content specs got index begin length spec) (hsub : got ⊆ got') :
    Servable sha1 content specs got' index begin length spec := ⟨hsub h.1, h.2, h.3, h.4⟩

theorem Answers.mono (h : Answers sha1 content specs got log) (hsub : got ⊆ got') :
    Answers sha1 content specs got' log where
  read l offset length hl := by
    obtain ⟨l₀, index, begin, spec, heq, hserve, hoff⟩ := h.read l offset length hl
    exact ⟨l₀, index, begin, spec, heq, hserve.mono hsub, hoff⟩
  piece l index begin block hl := by
    obtain ⟨l₀, length, spec, heq, hserve, hblock⟩ := h.piece l index begin block hl
    exact ⟨l₀, length, spec, heq, hserve.mono hsub, hblock⟩

theorem ReadOk.mono (h : ReadOk sha1 content specs got t) (hsub : got ⊆ got') :
    ReadOk sha1 content specs got' t := by
  intro index begin length offset data hp
  obtain ⟨l₀, spec, hlog, hoff, hserve, hdata⟩ := h index begin length offset data hp
  exact ⟨l₀, spec, hlog, hoff, hserve.mono hsub, hdata⟩

theorem Answers.append_quiet (h : Answers sha1 content specs got log) {added : List Entry}
    (hadded : ∀ e ∈ added, serves e = false) : Answers sha1 content specs got (log ++ added) := by
  induction added using List.reverseRecOn with
  | nil =>
    rw [List.append_nil]
    exact h
  | append_singleton added e ih =>
    have hold := ih fun x hx => hadded x (List.mem_append_left _ hx)
    have he : serves e = false := hadded e (List.mem_append_right _ (List.mem_singleton_self e))
    rw [← List.append_assoc]
    constructor
    · intro l offset length hl
      rcases List.prefix_concat_iff.mp hl with heq | hl
      · rw [← (List.append_inj' heq rfl).2 |> List.singleton_inj.mp] at he
        cases he
      · exact hold.read l offset length hl
    · intro l index begin block hl
      rcases List.prefix_concat_iff.mp hl with heq | hl
      · rw [← (List.append_inj' heq rfl).2 |> List.singleton_inj.mp] at he
        cases he
      · exact hold.piece l index begin block hl

theorem Answers.append_read {l₀ : List Entry} {index begin length : ℕ} {spec : PieceSpec}
    (h : Answers sha1 content specs got (l₀ ++ [.received (.request index begin length) false]))
    (hserve : Servable sha1 content specs got index begin length spec) :
    Answers sha1 content specs got (l₀ ++ [.received (.request index begin length) false] ++
      [.read (spec.offset + begin) length]) := by
  constructor
  · intro l offset length' hl
    rcases List.prefix_concat_iff.mp hl with heq | hl
    · obtain ⟨rfl, hlast⟩ := List.append_inj' heq rfl
      obtain ⟨rfl, rfl⟩ := Entry.read.inj (List.singleton_inj.mp hlast)
      exact ⟨l₀, index, begin, spec, rfl, hserve, rfl⟩
    · exact h.read l offset length' hl
  · intro l index' begin' block hl
    rcases List.prefix_concat_iff.mp hl with heq | hl
    · cases List.singleton_inj.mp (List.append_inj' heq rfl).2
    · exact h.piece l index' begin' block hl

theorem Answers.append_piece {l₀ : List Entry} {index begin length : ℕ} {spec : PieceSpec}
    {block : Bytes}
    (h : Answers sha1 content specs got (l₀ ++ [.received (.request index begin length) false] ++
      [.read (spec.offset + begin) length]))
    (hserve : Servable sha1 content specs got index begin length spec)
    (hblock : block = flatRead (content index) begin length) (hlen : block.length = length) :
    Answers sha1 content specs got (l₀ ++ [.received (.request index begin length) false] ++
      [.read (spec.offset + begin) length] ++ [.sent (.piece index begin block)]) := by
  constructor
  · intro l offset length' hl
    rcases List.prefix_concat_iff.mp hl with heq | hl
    · cases List.singleton_inj.mp (List.append_inj' heq rfl).2
    · exact h.read l offset length' hl
  · intro l index' begin' block' hl
    rcases List.prefix_concat_iff.mp hl with heq | hl
    · obtain ⟨rfl, hlast⟩ := List.append_inj' heq rfl
      obtain ⟨rfl, rfl, rfl⟩ := Message.piece.inj (Entry.sent.inj (List.singleton_inj.mp hlast))
      exact ⟨l₀, length, spec, rfl, hserve, hblock, hlen⟩
    · exact h.piece l index' begin' block' hl

/-- A Request for a piece that is had, from a peer that is not choked, asks for a range of it. -/
def Within (s : Session) (t : Task) : Action → Prop
  | .receives (.request index begin length) _ => t.amChoking = false → index ∈ s.tracker.got →
      ∀ spec ∈ s.tracker.specs[index]?, (begin : ℤ) + length ≤ spec.length
  | _ => True

instance (s : Session) (t : Task) (a : Action) : Decidable (Within s t a) := by
  unfold Within
  split <;> infer_instance

/-- What the storage holds at a position of a verified piece. -/
theorem stored_byte {index begin length n : ℕ} {spec : PieceSpec}
    (hgood : Verified sha1 content specs size s) (htiles : Tiles specs size)
    (hserve : Servable sha1 content specs s.tracker.got index begin length spec) (hn : n < length) :
    ∃ byte, (content index)[begin + n]? = some byte ∧ 0 ≤ spec.offset + begin + n ∧
      s.storage[(spec.offset + begin + n).toNat]? = some byte := by
  obtain ⟨spec', hat, -, hlen, hbytes⟩ := hgood.stored index hserve.had
  obtain rfl : spec = spec' := Option.some.inj (hserve.listed.symm.trans hat)
  have hinside := hserve.inside
  have hoff := (htiles.inside index spec hat (by omega)).1
  obtain ⟨byte, hbyte⟩ : ∃ byte, (content index)[begin + n]? = some byte :=
    ⟨_, List.getElem?_eq_getElem (by omega)⟩
  refine ⟨byte, hbyte, by omega, ?_⟩
  rw [show (spec.offset + begin + n).toNat = spec.offset.toNat + (begin + n) by omega]
  exact hbytes _ byte hbyte

def LogOk (sha1 : Bytes → Bytes) (content : ℕ → Bytes) (specs : List PieceSpec) (s : Session)
    (t : Task) : Prop :=
  Answers sha1 content specs s.tracker.got t.log ∧ ReadOk sha1 content specs s.tracker.got t

theorem readOk_of_not_reading (h : reading t = false) : ReadOk sha1 content specs got t := by
  intro index begin length offset data hp
  rw [reading, hp] at h
  cases h

theorem logOk_step (hgood : Verified sha1 content specs size s) (htiles : Tiles specs size)
    (hok : LogOk sha1 content specs s t) (hwithin : Within s t a) (hstep : Logged a s t t') :
    LogOk sha1 content specs s t' := by
  obtain ⟨hanswers, hread⟩ := hok
  cases hstep with
  | quiet h =>
    obtain ⟨added, hlog, hadded⟩ := h.log
    refine ⟨?_, readOk_of_not_reading h.point⟩
    rw [hlog]
    exact hanswers.append_quiet hadded
  | stays hlog hpoint =>
    refine ⟨by rwa [hlog], fun index begin length offset data hp => ?_⟩
    rw [hlog]
    exact hread index begin length offset data (hpoint ▸ hp)
  | @request index begin length hint spec ha hp hfree hgot hspec hlog hpoint =>
    have hinside : (begin : ℤ) + length ≤ spec.length := by
      rw [ha] at hwithin
      exact hwithin hfree hgot spec hspec
    have hverify : verifyPiece sha1 (content index) spec.hash = true := by
      obtain ⟨spec', hat, hverify, -⟩ := hgood.stored index hgot
      rw [hgood.specs_eq] at hspec
      obtain rfl : spec = spec' := Option.some.inj (hspec.symm.trans hat)
      exact hverify
    have hserve : Servable sha1 content specs s.tracker.got index begin length spec :=
      ⟨hgot, hgood.specs_eq ▸ hspec, hinside, hverify⟩
    have hreceived : Answers sha1 content specs s.tracker.got
        (t.log ++ [.received (.request index begin length) false]) :=
      hanswers.append_quiet (by simp [serves])
    refine ⟨by rw [hlog]; exact hreceived.append_read hserve, ?_⟩
    intro index' begin' length' offset' data' hp'
    obtain ⟨rfl, rfl, rfl, rfl, rfl⟩ := Await.read.inj (hpoint.symm.trans hp')
    exact ⟨t.log, spec, hlog, rfl, hserve, by simp [flatRead], Nat.zero_le _⟩
  | @fetches index begin length offset data byte hp hbyte hlog hpoint =>
    obtain ⟨l₀, spec, hl₀, rfl, hserve, hdata, -⟩ := hread index begin length offset data hp
    obtain ⟨hlt, -, hfetched⟩ := fetchByte_some hbyte
    have hlt : data.length < length := by omega
    obtain ⟨right, hright, -, hstored⟩ := stored_byte hgood htiles hserve hlt
    obtain rfl : byte = right := Option.some.inj (hfetched.symm.trans hstored)
    refine ⟨by rwa [hlog], fun index' begin' length' offset' data' hp' => ?_⟩
    obtain ⟨rfl, rfl, rfl, rfl, rfl⟩ := Await.read.inj (hpoint.symm.trans hp')
    refine ⟨l₀, spec, hlog.trans hl₀, rfl, hserve, ?_, ?_⟩
    · rw [List.length_append, List.length_singleton, flatRead, List.take_add_one, List.getElem?_drop,
        hright]
      exact congrArg (· ++ [byte]) hdata
    · rw [List.length_append, List.length_singleton]
      exact hlt
  | @answers index begin length offset data hp hover hlog hpoint =>
    obtain ⟨l₀, spec, hl₀, rfl, hserve, hdata, hle⟩ := hread index begin length offset data hp
    have hlen : data.length = length := by
      by_contra hne
      obtain ⟨right, -, hnonneg, hstored⟩ :=
        stored_byte hgood htiles hserve (show data.length < length by omega)
      rw [fetchByte, if_pos ⟨by omega, hnonneg⟩, hstored] at hover
      cases hover
    refine ⟨?_, readOk_of_not_reading hpoint⟩
    rw [hlog, hl₀]
    rw [hl₀] at hanswers
    exact hanswers.append_piece hserve (by rw [← hlen]; exact hdata) hlen

/-- New processes have not begun, and each Request for a piece that is had, from a peer that is not
choked, asks for a range of it. -/
def Serving (c : Config Session Proc) : Move Proc SessionAction → Prop
  | .spawn p => Fresh p
  | .act i (.peer a) => ∀ t, c.procs[i]? = some (.peer t) → Within c.shared t a
  | .act _ (.start _) => True

instance (c : Config Session Proc) : (m : Move Proc SessionAction) → Decidable (Serving c m)
  | .spawn p => inferInstanceAs (Decidable (Fresh p))
  | .act i (.peer a) =>
    match h : c.procs[i]? with
    | some (.peer t) => decidable_of_iff (Within c.shared t a) (by simp [Serving, h])
    | some (.starter _) => .isTrue fun t ht => by cases h.symm.trans ht
    | none => .isTrue fun t ht => by cases h.symm.trans ht
  | .act _ (.start _) => .isTrue trivial

/-- In every run in which peers ask for ranges of pieces only, whatever is read for a peer or sent
to it is a range of a verified piece that it asked for while it was not choked. -/
theorem served_verified {pieceLength totalLength : ℤ} {raw storage : Bytes} {tr : Tracker}
    {c : Config Session Proc} (htr : init pieceLength totalLength raw = some tr)
    (hsize : storage.length = totalLength.toNat) (honly : OnlyContent sha1 content tr.specs)
    (hreach : Reach (program sha1 kind) Serving ⟨newSession tr storage, []⟩ c)
    (ht : .peer t ∈ c.procs) : Answers sha1 content tr.specs c.shared.tracker.got t.log := by
  have hempty : ∀ i, i ∉ (newSession tr storage).tracker.got := fun i hi => by
    rw [show (newSession tr storage).tracker.got = ∅ from (specs_eq_of_init htr).2.2.2.1] at hi
    cases hi
  have hboth := hreach.rely_guarantee (G := Verified sha1 content tr.specs totalLength.toNat)
    (L := fun s p => ProcOk sha1 content tr.specs s p ∧
      ∀ t, p = .peer t → LogOk sha1 content tr.specs s t)
    (R := fun s s' => KeepsRight content tr.specs s s' ∧ s.tracker.got ⊆ s'.tracker.got)
    ⟨rfl, specs_length htr, hsize, fun i hi => absurd hi (hempty i), fun i hi => absurd hi (hempty i)⟩
    (fun p hp => by cases hp) ?_ ?_ ?_
  · exact (hboth.2 _ ht).2 t rfl |>.1
  · intro c p _ hfresh
    refine ⟨procOk_of_fresh hfresh, fun t hp => ?_⟩
    subst hp
    obtain ⟨addr, given, rates, rfl⟩ := hfresh
    refine ⟨⟨fun l offset length hl => ?_, fun l index begin block hl => ?_⟩,
      readOk_of_not_reading rfl⟩
    · simp [newTask] at hl
    · simp [newTask] at hl
  · intro c i a p s p' hmove hp hgood hok hstep
    obtain ⟨hproc, hlog⟩ := hok
    cases p with
    | peer t =>
      obtain ⟨b, t', rfl, rfl, htask⟩ := program_peer hstep
      have hturn := turn_of_step htask
      obtain ⟨hgood', hproc', hkeep⟩ := hgood.turn (init_tiles htr) honly hproc hturn
      refine ⟨hgood', ⟨hproc', fun u hu => ?_⟩, hkeep, hturn.got_subset⟩
      obtain rfl := Proc.peer.inj hu
      have hlog' := logOk_step hgood (init_tiles htr) (hlog t rfl) (hmove t hp) (logged_of_step htask)
      exact ⟨hlog'.1.mono hturn.got_subset, hlog'.2.mono hturn.got_subset⟩
    | starter st =>
      obtain ⟨b, st', -, rfl, hstart⟩ := program_starter hstep
      obtain ⟨hgood', hproc', hkeep⟩ := hgood.start (init_tiles htr) honly hproc hstart
      exact ⟨hgood', ⟨hproc', fun u hu => by cases hu⟩, hkeep, start_got_subset hstart⟩
  · intro s s' p _ hR hok
    refine ⟨procOk_stable hok.1 hR.1, fun t hp => ?_⟩
    obtain ⟨hanswers, hread⟩ := hok.2 t hp
    exact ⟨hanswers.mono hR.2, hread.mono hR.2⟩

def logOf : Proc → List Entry
  | .peer t => t.log
  | .starter _ => []

end ServedPieces
