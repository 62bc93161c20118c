import Aiobt.SeedSteps

/-! # A task and the seed at its other end

What holds between a task and the task of a client that has every piece, with the messages that are
on their way between them: no block that the one waits for gets lost. -/
namespace LeechingPairs

open ByteStrings PieceTracker PeerMessages PieceEngine SessionTasks EngineTurns BlockTransfer
open VerifiedPieces TransferTurns PeerExceptions Swarms SeedSteps

variable {sha1 : Bytes → Bytes} {kind : StorageKind} {content : ℕ → Bytes} {specs : List PieceSpec}
  {size : ℕ} {a : PieceEngine.Action} {hint : ℕ} {s s' r r' : Session} {t t' u u' : Task}
  {msg : Message} {inbox outbox rest : List Message}

def interested (t : Task) : Bool := (t.rates.map Rates.peerInterested).getD false

structure Seeding (specs : List PieceSpec) (r : Session) (u : Task) : Prop where
  full : Full specs r.tracker.got
  idle : u.currentPiece = none
  loop : stage u.point = .fresh ∨ stage u.point = .running
  rates : u.rates.isSome

/-- What the task has heard and will hear of being choked is what the seed has decided. -/
structure Choking (t u : Task) (inbox : List Message) : Prop where
  ahead : chokedBy t.peerChoking inbox = u.amChoking
  fresh : stage t.point = .fresh → t.peerChoking = true
  drops : t.peerChoking = true → t.currentPiece = none

/-- The piece is not complete, and each of its blocks is somewhere unless the task is about to be
choked. -/
structure Fetching (t u : Task) (inbox outbox : List Message) : Prop where
  missing : stage t.point = .running → ∀ i spec, t.currentPiece = some i → t.pieceSpec = some spec →
    pieceComplete t.pieceBlocks spec.length = false
  waiting : .choke ∈ inbox ∨ ∀ i spec, t.currentPiece = some i → t.pieceSpec = some spec →
    ∀ block ∈ blocks spec, Accounted t u inbox outbox i block

/-- The task does not know the pieces of the seed yet, and the seed does not know its interest. -/
structure Unaware (t u : Task) (inbox outbox : List Message) : Prop where
  untold : .interested ∉ outbox
  unheard : ∀ free, .received .interested free ∉ u.log
  silent : .unchoke ∉ inbox
  waits : t.peerChoking = true
  chokes : u.amChoking = true
  coming : u.point = .starting ∨ ∃ data, .bitfield data ∈ inbox

structure Learning (specs : List PieceSpec) (s : Session) (t u : Task) (inbox outbox : List Message) :
    Prop where
  knows : Full specs t.peerPieces ∨ Unaware t u inbox outbox
  interest : Full specs t.peerPieces →
    s.tracker.isComplete ∨ .interested ∈ outbox ∨ interested u = true
  finished : t.point = .emitCompleted → s.tracker.isComplete
  leaving : .notInterested ∈ outbox → s.tracker.isComplete
  bitfields : ∀ data, .bitfield data ∈ inbox → ∀ i < specs.length, hasPiece data i = true
  noHave : ∀ i, .havePiece i ∉ inbox

/-- A task `t` of the client `s` with the task `u` of the seed `r` at its other end. -/
structure Leeching (specs : List PieceSpec) (s r : Session) (t u : Task)
    (inbox outbox : List Message) : Prop where
  seeding : Seeding specs r u
  choking : Choking t u inbox
  atWork : AtWork s t
  fetching : Fetching t u inbox outbox
  learning : Learning specs s t u inbox outbox

theorem amChoking_after (h : Worked a s t t') (ha : ∀ amChoking, a ≠ .rechokes amChoking) :
    t'.amChoking = t.amChoking := by
  rw [amChoking_eq, amChoking_eq, h.decided]
  unfold decidedAfter
  split
  · rw [Option.map_map]
    rfl
  · rw [Option.map_map]
    rfl
  · exact absurd rfl (ha _)
  · rfl

theorem idle_step (h : Transfer a s t t') (hidle : t.currentPiece = none)
    (hchoked : t'.peerChoking = true) : t'.currentPiece = none := by
  cases h with
  | keeps hkept => exact hkept.same.currentPiece.trans hidle
  | drops _ hnone _ => exact hnone
  | learns _ hsame _ _ => exact hsame.currentPiece.trans hidle
  | hears _ hsame _ _ => exact hsame.currentPiece.trans hidle
  | starts _ _ _ _ _ _ _ hfree _ => cases hchoked.symm.trans hfree
  | asks _ hsame _ _ _ => exact hsame.currentPiece.trans hidle
  | gets _ hcur _ _ _ => cases hidle.symm.trans hcur

/-- A Choke makes a task give up its piece. -/
theorem choke_step (h : Transfer (.receives .choke hint) s t t') (hp : t.point = .receive)
    (hchoked : t'.peerChoking = true) : t'.currentPiece = none := by
  cases h with
  | keeps hkept => exact hkept.same.currentPiece.trans hkept.aside
  | drops _ hnone _ => exact hnone
  | learns ha _ _ _ => cases ha
  | hears ha _ _ _ => cases ha
  | starts _ _ _ _ _ _ _ hfree _ => cases hchoked.symm.trans hfree
  | asks hasks _ _ _ _ => cases hp.symm.trans hasks
  | gets ha _ _ _ _ => cases ha

theorem Choking.near (h : Choking t u ((takenBy (.peer a)).toList ++ rest))
    (hok : TaskOk sha1 specs t) (hstep : taskStep sha1 kind a s t = some (s', t')) :
    Choking t' u rest where
  ahead := by
    have hworked := worked_of_step hstep
    have hahead := h.ahead
    rcases hworked.choking with heq | ⟨hp, heq⟩
    · rw [heq]
      cases a with
      | receives msg hint => cases msg <;> exact hahead
      | _ => exact hahead
    · have hfresh := h.fresh (by rw [hp]; rfl)
      rw [hfresh] at hahead
      rw [heq]
      cases a with
      | receives msg hint => cases hp.symm.trans (point_of_receives hstep)
      | _ => exact hahead
  fresh hfresh := by
    have hbefore := fresh_turn (turn_of_step hstep) hfresh
    rcases (worked_of_step hstep).choking with heq | ⟨-, heq⟩
    · rw [heq]
      cases a with
      | receives msg hint =>
        rw [point_of_receives hstep] at hbefore
        cases hbefore
      | _ => exact h.fresh hbefore
    · exact heq
  drops hchoked := by
    have hworked := worked_of_step hstep
    rcases choked_cases hworked hchoked with hbefore | hp | ⟨hint, rfl⟩
    · exact idle_step hworked.transfer (h.drops hbefore) hchoked
    · have hidle := (hok.fresh (by rw [hp]; rfl)).1
      exact idle_step hworked.transfer hidle hchoked
    · exact choke_step hworked.transfer (point_of_receives hstep) hchoked

/-- Without a decision of the choking manager neither Choke nor Unchoke is sent. -/
theorem silent_step (h : Worked a r u u') (hrates : u.rates.isSome)
    (ha : ∀ amChoking, a ≠ .rechokes amChoking) :
    .choke ∉ sentBy a u u' ∧ .unchoke ∉ sentBy a u u' := by
  constructor
  · intro hm
    cases h.logged (logged_of_sentBy ha hm)
  · intro hm
    cases h.logged (logged_of_sentBy ha hm) with
    | unchoke _ hnone =>
      rw [hnone] at hrates
      cases hrates

theorem Choking.far (h : Choking t u inbox) (hrates : u.rates.isSome)
    (hstep : taskStep sha1 kind a r u = some (r', u')) : Choking t u' (inbox ++ sentBy a u u') where
  ahead := by
    rw [chokedBy_append, h.ahead]
    by_cases ha : ∃ amChoking, a = .rechokes amChoking
    · obtain ⟨amChoking, rfl⟩ := ha
      obtain ⟨rates, -, -, rfl⟩ := rechokes_cases hstep
      have hafter : Task.amChoking { u with rates := some { rates with amChoking := amChoking } } =
          amChoking := rfl
      rw [hafter, sentBy]
      by_cases hsame : u.amChoking = amChoking
      · rw [if_pos hsame, hsame]
        rfl
      · rw [if_neg hsame]
        cases amChoking <;> rfl
    · have hno : ∀ amChoking, a ≠ .rechokes amChoking := fun amChoking heq => ha ⟨amChoking, heq⟩
      have hworked := worked_of_step hstep
      obtain ⟨hchoke, hunchoke⟩ := silent_step hworked hrates hno
      rw [chokedBy_silent hchoke hunchoke, amChoking_after hworked hno]
  fresh := h.fresh
  drops := h.drops

theorem missing_step (h : Fetching t u inbox outbox) (hok : TaskOk sha1 specs t)
    (hspecs : s.tracker.specs = specs)
    (hpositive : ∀ (i : ℕ) (spec : PieceSpec), specs[i]? = some spec → 0 < spec.length)
    (hstep : taskStep sha1 kind a s t = some (s', t')) (hrunning : stage t'.point = .running) {i : ℕ}
    {spec : PieceSpec} (hcur : t'.currentPiece = some i) (hspec : t'.pieceSpec = some spec) :
    pieceComplete t'.pieceBlocks spec.length = false := by
  have hsame : t'.currentPiece = t.currentPiece → t'.pieceSpec = t.pieceSpec →
      t'.pieceBlocks = t.pieceBlocks → stage t.point = .running →
      pieceComplete t'.pieceBlocks spec.length = false := by
    intro hcur₁ hspec₁ hblocks₁ hr
    rw [hcur₁] at hcur
    rw [hspec₁] at hspec
    rw [hblocks₁]
    exact h.missing hr i spec hcur hspec
  have hreceives : ∀ {msg hint}, a = .receives msg hint → stage t.point = .running := by
    rintro msg hint rfl
    rw [point_of_receives hstep]
    rfl
  cases (worked_of_step hstep).transfer with
  | keeps hkept =>
    rcases hkept.running hrunning with hr | hfresh
    · exact hsame hkept.same.currentPiece hkept.same.pieceSpec hkept.same.pieceBlocks hr
    · rw [hkept.same.currentPiece, (hok.fresh hfresh).1] at hcur
      cases hcur
  | drops _ hnone _ => cases hnone.symm.trans hcur
  | learns ha hlearned _ _ =>
    exact hsame hlearned.currentPiece hlearned.pieceSpec hlearned.pieceBlocks (hreceives ha)
  | hears ha hheard _ _ =>
    exact hsame hheard.currentPiece hheard.pieceSpec hheard.pieceBlocks (hreceives ha)
  | @starts index spec₁ _ _ hat _ _ hspec₁ hblocks _ _ =>
    obtain rfl := Option.some.inj (hspec₁.symm.trans hspec)
    have hlength := hpositive index spec₁ (hspecs ▸ hat)
    rw [hblocks, pieceComplete]
    exact decide_eq_false (by simpa using hlength)
  | asks hp hkept _ _ _ =>
    exact hsame hkept.currentPiece hkept.pieceSpec hkept.pieceBlocks (by rw [hp]; rfl)
  | gets ha hcur₁ hstored _ hwaits =>
    rw [hstored.pieceSpec] at hspec
    rw [hstored.pieceBlocks]
    exact hwaits hrunning spec hspec

def Asking (t : Task) : Prop :=
  ∀ spec offset, t.point = .sendRequest spec offset →
    ∃ i, t.currentPiece = some i ∧ t.pieceSpec = some spec ∧ (offset, blockLen spec offset) ∈ blocks spec

theorem accounted_step (hasking : Asking t) (hok : TaskOk sha1 specs t) (hlive : Live t')
    (hspecs : s.tracker.specs = specs)
    (hindex : ∀ (i : ℕ) (spec : PieceSpec), specs[i]? = some spec → spec.index = i)
    (hall : ∀ i spec, t.currentPiece = some i → t.pieceSpec = some spec →
      ∀ block ∈ blocks spec, Accounted t u ((takenBy (.peer a)).toList ++ rest) outbox i block)
    (hstep : taskStep sha1 kind a s t = some (s', t')) {i : ℕ} {spec : PieceSpec}
    (hcur : t'.currentPiece = some i) (hspec : t'.pieceSpec = some spec) {block : ℕ × ℕ}
    (hblock : block ∈ blocks spec) : Accounted t' u rest (outbox ++ sentBy a t t') i block := by
  have hout : ∀ msg ∈ outbox, msg ∈ outbox ++ sentBy a t t' := fun msg hm =>
    List.mem_append_left _ hm
  have hreceives : ∀ {msg hint spec offset}, a = .receives msg hint →
      t.point ≠ .sendRequest spec offset := by
    rintro msg hint spec offset rfl hp
    cases (point_of_receives hstep).symm.trans hp
  have hsent : ∀ {index : ℕ} {sp : PieceSpec} {b : ℕ × ℕ}, specs[index]? = some sp →
      t'.log = t.log ++ heardBy a t ++ [.sent (requestOf sp b)] →
      .request index b.1 b.2 ∈ outbox ++ sentBy a t t' := by
    intro index sp b hat hlog
    have hm := sentBy_of_log hstep hlog
    rw [requestOf, hindex index sp hat, Int.toNat_natCast] at hm
    exact List.mem_append_right _ hm
  have hsame : t'.currentPiece = t.currentPiece → t'.pieceSpec = t.pieceSpec →
      t'.pieceBlocks = t.pieceBlocks → (∀ data hint, a ≠ .receives (.piece i block.1 data) hint) →
      (∀ sp offset, t.point = .sendRequest sp offset → t.pieceSpec = some spec → offset < block.1 →
        Accounted t' u rest (outbox ++ sentBy a t t') i block) →
      Accounted t' u rest (outbox ++ sentBy a t t') i block := by
    intro hcur₁ hspec₁ hblocks₁ hother hlater
    rw [hcur₁] at hcur
    rw [hspec₁] at hspec
    refine (hall i spec hcur hspec block hblock).near hout (fun data hm => ⟨data, ?_⟩) ?_ ?_
    · rw [hblocks₁]
      exact hm
    · exact fun data hint ha => absurd ha (hother data hint)
    · exact fun sp offset hp hlt => hlater sp offset hp hspec hlt
  cases (worked_of_step hstep).transfer with
  | keeps hkept =>
    have haside := hkept.aside
    refine hsame hkept.same.currentPiece hkept.same.pieceSpec hkept.same.pieceBlocks ?_
      fun sp offset hp hsp hlt => ?_
    · rintro data hint rfl
      rw [hkept.same.currentPiece] at hcur
      exact haside hcur
    · obtain ⟨-, -, hsp', hown⟩ := hasking sp offset hp
      obtain rfl := Option.some.inj (hsp'.symm.trans hsp)
      rcases hkept.asked sp offset hp with heq | hover | hgone
      · exact .later (heq.trans hp) hlt
      · have hbehind := block_behind hown hblock hlt
        have hinside := ((blocks_tiling sp).inside hblock).2.1
        have hpos := ((blocks_tiling sp).inside hblock).2.2
        dsimp only at hbehind
        omega
      · exact absurd hgone hlive
  | drops _ hnone _ => cases hnone.symm.trans hcur
  | learns ha hlearned _ _ =>
    refine hsame hlearned.currentPiece hlearned.pieceSpec hlearned.pieceBlocks ?_
      fun sp offset hp => absurd hp (hreceives ha)
    rintro data hint rfl
    cases ha
  | hears ha hheard _ _ =>
    refine hsame hheard.currentPiece hheard.pieceSpec hheard.pieceBlocks ?_
      fun sp offset hp => absurd hp (hreceives ha)
    rintro data hint rfl
    cases ha
  | @starts index spec₁ _ _ hat _ hcur₁ hspec₁ _ _ hpoint =>
    obtain rfl := Option.some.inj (hspec₁.symm.trans hspec)
    obtain rfl := Option.some.inj (hcur₁.symm.trans hcur)
    have hlength := ((blocks_tiling spec₁).inside hblock)
    rcases hpoint with ⟨-, hno⟩ | ⟨hp, hpos, hlog⟩
    · omega
    · exact .asks (first_block hpos) hblock (Nat.zero_le _) hp (hsent (hspecs ▸ hat) hlog)
  | @asks sp offset hp hkept hpoint hlt hlog =>
    refine hsame hkept.currentPiece hkept.pieceSpec hkept.pieceBlocks ?_
      fun sp' offset' hp' hsp hbehind => ?_
    · rintro data hint rfl
      exact hreceives rfl hp
    · obtain ⟨rfl, rfl⟩ := Await.sendRequest.inj (hp.symm.trans hp')
      obtain ⟨index, hcur₁, hsp', hown⟩ := hasking sp offset hp
      obtain rfl := Option.some.inj (hsp'.symm.trans hsp)
      obtain ⟨spec₂, hspec₂, hat⟩ := hok.current index hcur₁
      obtain rfl := Option.some.inj (hsp'.symm.trans hspec₂)
      rw [hkept.currentPiece, hcur₁] at hcur
      obtain rfl := Option.some.inj hcur
      exact .asks (next_block hown hlt) hblock (block_behind hown hblock hbehind) hpoint
        (hsent hat hlog)
  | @gets index begin data hint ha hcur₁ hstored _ _ =>
    rw [hstored.currentPiece, hcur₁] at hcur
    rw [hstored.pieceSpec] at hspec
    obtain rfl := Option.some.inj hcur
    refine (hall index spec hcur₁ hspec block hblock).near hout ?_ ?_ ?_
    · intro data' hm
      rw [hstored.pieceBlocks]
      exact mem_setBlock hm
    · intro data' hint' ha'
      obtain ⟨hmsg, -⟩ := PieceEngine.Action.receives.inj (ha.symm.trans ha')
      obtain ⟨-, rfl, rfl⟩ := Message.piece.inj hmsg
      have hm : (block.1, data) ∈ t'.pieceBlocks := by
        rw [hstored.pieceBlocks]
        exact mem_setBlock_self _ _ _
      exact .here hm
    · exact fun sp offset hp => absurd hp (hreceives ha)

theorem Fetching.near (h : Fetching t u ((takenBy (.peer a)).toList ++ rest) outbox)
    (hchoking : Choking t' u rest) (hasking : Asking t) (hok : TaskOk sha1 specs t) (hlive : Live t')
    (hspecs : s.tracker.specs = specs)
    (hindex : ∀ (i : ℕ) (spec : PieceSpec), specs[i]? = some spec → spec.index = i)
    (hpositive : ∀ (i : ℕ) (spec : PieceSpec), specs[i]? = some spec → 0 < spec.length)
    (hstep : taskStep sha1 kind a s t = some (s', t')) :
    Fetching t' u rest (outbox ++ sentBy a t t') where
  missing hrunning i spec hcur hspec :=
    missing_step h hok hspecs hpositive hstep hrunning hcur hspec
  waiting := by
    rcases h.waiting with hchoke | hall
    · rcases List.mem_append.mp hchoke with hhead | hrest
      · right
        intro i spec hcur
        obtain ⟨hint, rfl⟩ := mem_taken hhead
        have hchoked : t'.peerChoking = true := by
          rcases (worked_of_step hstep).choking with heq | ⟨-, heq⟩
          · exact heq
          · exact heq
        cases (hchoking.drops hchoked).symm.trans hcur
      · exact Or.inl hrest
    · exact Or.inr fun i spec hcur hspec block hblock =>
        accounted_step hasking hok hlive hspecs hindex hall hstep hcur hspec hblock

theorem Fetching.far (h : Fetching t u inbox ((takenBy (.peer a)).toList ++ rest))
    (hchoking : Choking t u inbox) (hfull : Full specs r.tracker.got)
    (hspecs : r.tracker.specs = specs) (hok : TaskOk sha1 specs t) (hlive : Live u')
    (hstep : taskStep sha1 kind a r u = some (r', u')) :
    Fetching t u' (inbox ++ sentBy a u u') rest where
  missing := h.missing
  waiting := by
    by_cases hchoke : .choke ∈ inbox
    · exact Or.inl (List.mem_append_left _ hchoke)
    · right
      intro i spec hcur hspec block hblock
      cases h.waiting.resolve_left hchoke i spec hcur hspec block hblock with
      | here hm => exact .here hm
      | coming hm => exact .coming (List.mem_append_left _ hm)
      | reading hp =>
        rcases read_step hp hlive hstep with ⟨data, hp'⟩ | hm
        · exact .reading hp'
        · exact .coming (List.mem_append_right _ hm)
      | asked hm =>
        rcases List.mem_append.mp hm with hm | hm
        · obtain ⟨hint, rfl⟩ := mem_taken hm
          obtain ⟨spec', hspec', hat⟩ := hok.current i hcur
          have hgot := hfull i (List.getElem?_eq_some_iff.mp hat).1
          refine .reading (request_step hstep ?_ hgot (hspecs ▸ hat))
          -- a seed that chokes has sent the Choke, which has been read
          by_contra hno
          have hchoked : chokedBy t.peerChoking inbox = true := by
            rw [hchoking.ahead]
            simpa using hno
          cases (hchoking.drops (choked_of_chokedBy hchoke hchoked)).symm.trans hcur
        · exact .asked hm
      | later hp hlt => exact .later hp hlt

theorem peerPieces_cases (h : Transfer a s t t') : t'.peerPieces = t.peerPieces ∨
    (∃ data hint, a = .receives (.bitfield data) hint) ∨
      ∃ index hint, a = .receives (.havePiece index) hint := by
  cases h with
  | keeps hkept => exact Or.inl hkept.same.peerPieces
  | drops hpieces _ _ => exact Or.inl hpieces
  | learns ha _ _ _ => exact Or.inr (Or.inl ⟨_, _, ha⟩)
  | hears ha _ _ _ => exact Or.inr (Or.inr ⟨_, _, ha⟩)
  | starts _ _ _ hpieces _ _ _ _ _ => exact Or.inl hpieces
  | asks _ hsame _ _ _ => exact Or.inl hsame.peerPieces
  | gets _ _ hsame _ _ => exact Or.inl hsame.peerPieces

theorem mem_of_takes (h : a = .receives msg hint) : msg ∈ (takenBy (.peer a)).toList ++ rest := by
  subst h
  exact List.mem_append_left _ (List.mem_singleton_self msg)

theorem interested_eq (t : Task) : interested t = ((decided t).map Prod.snd).getD false := by
  rw [interested, decided, Option.map_map]
  rfl

theorem Unaware.near (h : Unaware t u ((takenBy (.peer a)).toList ++ rest) outbox)
    (hnoHave : ∀ i, .havePiece i ∉ (takenBy (.peer a)).toList ++ rest)
    (hlearns : ∀ data hint, a ≠ .receives (.bitfield data) hint) (hworked : Worked a s t t') :
    Unaware t' u rest (outbox ++ sentBy a t t') where
  untold hm := by
    rcases List.mem_append.mp hm with hm | hm
    · exact h.untold hm
    · rcases hworked.sent hm with heq | heq | hadds
      · cases heq
      · cases heq
      · cases hadds with
        | interested _ hwhy =>
          rcases hwhy with ⟨data, hint, ha⟩ | ⟨index, hint, ha⟩
          · exact hlearns data hint ha
          · exact hnoHave index (mem_of_takes ha)
  unheard := h.unheard
  silent hm := h.silent (List.mem_append_right _ hm)
  waits := by
    rcases hworked.choking with heq | ⟨-, heq⟩
    · rw [heq]
      unfold chokingAfter
      split
      · rfl
      · exact absurd (mem_of_takes rfl) h.silent
      · exact h.waits
    · exact heq
  chokes := h.chokes
  coming := by
    rcases h.coming with hp | ⟨data, hm⟩
    · exact Or.inl hp
    · rcases List.mem_append.mp hm with hm | hm
      · obtain ⟨hint, ha⟩ := mem_taken hm
        exact absurd ha (hlearns data hint)
      · exact Or.inr ⟨data, hm⟩

theorem Learning.near (h : Learning specs s t u ((takenBy (.peer a)).toList ++ rest) outbox)
    (hs : Sound s) (hspecs : s.tracker.specs = specs)
    (hgrows : s.tracker.isComplete → s'.tracker.isComplete)
    (hstep : taskStep sha1 kind a s t = some (s', t')) :
    Learning specs s' t' u rest (outbox ++ sentBy a t t') := by
  have hworked := worked_of_step hstep
  have hlearned : ∀ {data hint}, a = .receives (.bitfield data) hint → Full specs t'.peerPieces := by
    rintro data hint rfl
    rw [(bitfield_step hstep).1]
    intro i hi
    refine mem_bitfieldToSet.mpr ⟨?_, h.bitfields data (mem_of_takes rfl) i hi⟩
    rw [← hspecs, hs.specs] at hi
    omega
  have hkeeps : Full specs t.peerPieces → Full specs t'.peerPieces := by
    intro hfull
    rcases peerPieces_cases hworked.transfer with heq | ⟨data, hint, ha⟩ | ⟨index, hint, rfl⟩
    · exact heq ▸ hfull
    · exact hlearned ha
    · exact absurd (mem_of_takes rfl) (h.noHave index)
  constructor
  · rcases h.knows with hfull | hunaware
    · exact Or.inl (hkeeps hfull)
    · by_cases ha : ∃ data hint, a = .receives (.bitfield data) hint
      · obtain ⟨data, hint, ha⟩ := ha
        exact Or.inl (hlearned ha)
      · refine Or.inr (hunaware.near h.noHave (fun data hint heq => ?_) hworked)
        exact ha ⟨data, hint, heq⟩
  · intro hfull
    by_cases hbefore : Full specs t.peerPieces
    · rcases h.interest hbefore with hc | hm | hi
      · exact Or.inl (hgrows hc)
      · exact Or.inr (Or.inl (List.mem_append_left _ hm))
      · exact Or.inr (Or.inr hi)
    · rcases peerPieces_cases hworked.transfer with heq | ⟨data, hint, rfl⟩ | ⟨index, hint, rfl⟩
      · exact absurd (heq ▸ hfull) hbefore
      · rcases (bitfield_step hstep).2 with hc | hm
        · exact Or.inl (hgrows hc)
        · exact Or.inr (Or.inl (List.mem_append_right _ hm))
      · exact absurd (mem_of_takes rfl) (h.noHave index)
  · intro hp
    rcases hworked.completed hp with hbefore | hc
    · exact hgrows (h.finished hbefore)
    · exact hgrows hc.1
  · intro hm
    rcases List.mem_append.mp hm with hm | hm
    · exact hgrows (h.leaving hm)
    · rcases hworked.sent hm with heq | heq | hadds
      · cases heq
      · cases heq
      · cases hadds with
        | notInterested hp => exact hgrows (h.finished hp)
  · exact fun data hm => h.bitfields data (List.mem_append_right _ hm)
  · exact fun i hm => h.noHave i (List.mem_append_right _ hm)

theorem received_after (h : Worked a s t t') {free : Bool}
    (hm : .received msg free ∈ t'.log) : .received msg free ∈ t.log ∨ ∃ hint, a = .receives msg hint := by
  have hheard : .received msg free ∈ t.log ++ heardBy a t := by
    rcases h.log with hlog | ⟨e, hlog, hadds⟩
    · exact hlog ▸ hm
    · rw [hlog] at hm
      rcases List.mem_append.mp hm with hm | hm
      · exact hm
      · rw [← List.mem_singleton.mp hm] at hadds
        cases hadds
  refine (List.mem_append.mp hheard).imp_right fun hnew => ?_
  cases a with
  | receives m hint =>
    obtain ⟨rfl, -⟩ := Entry.received.inj (List.mem_singleton.mp hnew)
    exact ⟨hint, rfl⟩
  | _ => cases hnew

/-- The choking manager has heard of the interest of a peer before it unchokes it. -/
def Wanted (a : PieceEngine.Action) (t : Task) : Prop :=
  a = .rechokes false → ∃ free, .received .interested free ∈ t.log

theorem Unaware.far (h : Unaware t u inbox ((takenBy (.peer a)).toList ++ rest))
    (hrates : u.rates.isSome) (hwanted : Wanted a u) (hlive : Live u')
    (hstep : taskStep sha1 kind a r u = some (r', u')) :
    Unaware t u' (inbox ++ sentBy a u u') rest := by
  have hworked := worked_of_step hstep
  have hdecides : ∀ amChoking, a = .rechokes amChoking → amChoking = true := by
    rintro amChoking rfl
    by_contra hno
    obtain rfl : amChoking = false := by simpa using hno
    obtain ⟨free, hm⟩ := hwanted rfl
    exact h.unheard free hm
  constructor
  · exact fun hm => h.untold (List.mem_append_right _ hm)
  · intro free hm
    rcases received_after hworked hm with hbefore | ⟨hint, ha⟩
    · exact h.unheard free hbefore
    · exact h.untold (mem_of_takes ha)
  · intro hm
    rcases List.mem_append.mp hm with hm | hm
    · exact h.silent hm
    · by_cases ha : ∃ amChoking, a = .rechokes amChoking
      · obtain ⟨amChoking, rfl⟩ := ha
        obtain rfl := hdecides amChoking rfl
        rw [sentBy, if_pos h.chokes] at hm
        cases hm
      · exact (silent_step hworked hrates fun amChoking heq => ha ⟨amChoking, heq⟩).2 hm
  · exact h.waits
  · by_cases ha : ∃ amChoking, a = .rechokes amChoking
    · obtain ⟨amChoking, rfl⟩ := ha
      obtain ⟨rates, -, -, rfl⟩ := rechokes_cases hstep
      exact hdecides amChoking rfl
    · rw [amChoking_after hworked fun amChoking heq => ha ⟨amChoking, heq⟩]
      exact h.chokes
  · rcases h.coming with hp | ⟨data, hm⟩
    · rcases starting_step hp hlive hstep with hp' | ⟨data, hm⟩
      · exact Or.inl hp'
      · exact Or.inr ⟨data, List.mem_append_right _ hm⟩
    · exact Or.inr ⟨data, List.mem_append_left _ hm⟩

theorem interested_after (h : Worked a r u u') (hrates : u.rates.isSome)
    (hbefore : interested u = true ∨ ∃ hint, a = .receives .interested hint)
    (hkeeps : ∀ hint, a ≠ .receives .notInterested hint) : interested u' = true := by
  obtain ⟨rates, hrates⟩ := Option.isSome_iff_exists.mp hrates
  have hdecided : decided u = some (rates.amChoking, rates.peerInterested) := by
    rw [decided, hrates]
    rfl
  rw [interested_eq, hdecided] at hbefore
  rw [interested_eq, h.decided]
  unfold decidedAfter
  split
  · rw [hdecided]
    rfl
  · exact absurd rfl (hkeeps _)
  · rw [hdecided]
    rcases hbefore with hi | ⟨hint, ha⟩
    · exact hi
    · cases ha
  · next hother _ _ =>
    rw [hdecided]
    rcases hbefore with hi | ⟨hint, ha⟩
    · exact hi
    · exact absurd ha (hother hint)

theorem Learning.far (h : Learning specs s t u inbox ((takenBy (.peer a)).toList ++ rest))
    (hseeding : Seeding specs r u) (hcount : specs.length = r.tracker.pieceCount.toNat)
    (hwanted : Wanted a u) (hlive : Live u') (hstep : taskStep sha1 kind a r u = some (r', u')) :
    Learning specs s t u' (inbox ++ sentBy a u u') rest := by
  have hworked := worked_of_step hstep
  constructor
  · exact h.knows.imp_right fun hunaware => hunaware.far hseeding.rates hwanted hlive hstep
  · intro hfull
    by_cases ha : ∃ hint, a = .receives .notInterested hint
    · obtain ⟨hint, ha⟩ := ha
      exact Or.inl (h.leaving (mem_of_takes ha))
    · have hkeeps : ∀ hint, a ≠ .receives .notInterested hint := fun hint heq => ha ⟨hint, heq⟩
      rcases h.interest hfull with hc | hm | hi
      · exact Or.inl hc
      · rcases List.mem_append.mp hm with hm | hm
        · exact Or.inr (Or.inr (interested_after hworked hseeding.rates (Or.inr (mem_taken hm)) hkeeps))
        · exact Or.inr (Or.inl hm)
      · exact Or.inr (Or.inr (interested_after hworked hseeding.rates (Or.inl hi) hkeeps))
  · exact h.finished
  · exact fun hm => h.leaving (List.mem_append_right _ hm)
  · intro data hm
    rcases List.mem_append.mp hm with hm | hm
    · exact h.bitfields data hm
    · rcases hworked.sent hm with heq | heq | hadds
      · cases heq
      · cases heq
      · cases hadds with
        | bitfield _ _ hbuilt => exact built_full hbuilt hcount hseeding.full
  · intro i hm
    rcases List.mem_append.mp hm with hm | hm
    · exact h.noHave i hm
    · rcases hworked.sent hm with heq | heq | hadds
      · cases heq
      · cases heq
      · cases hadds with
        | havePiece hp =>
          have hloop := hseeding.loop
          rw [hp] at hloop
          rcases hloop with hl | hl
          · cases hl
          · cases hl

theorem Seeding.far (h : Seeding specs r u) (hr : Sound r) (hspecs : r.tracker.specs = specs)
    (hlive : Live u') (hstep : taskStep sha1 kind a r u = some (r', u')) : Seeding specs r' u' where
  full := h.full.mono (turn_of_step hstep).got_subset
  idle := by
    cases (worked_of_step hstep).transfer with
    | keeps hkept => exact hkept.same.currentPiece.trans h.idle
    | drops _ hnone _ => exact hnone
    | learns _ hsame _ _ => exact hsame.currentPiece.trans h.idle
    | hears _ hsame _ _ => exact hsame.currentPiece.trans h.idle
    | @starts index _ _ hlacks hat _ _ _ _ _ _ =>
      rw [hspecs] at hat
      exact absurd (h.full index (List.getElem?_eq_some_iff.mp hat).1) hlacks
    | asks _ hsame _ _ _ => exact hsame.currentPiece.trans h.idle
    | gets _ hcur _ _ _ => cases h.idle.symm.trans hcur
  loop := seed_turn (turn_of_step hstep) h.idle h.loop ((isComplete_iff hr hspecs).mpr h.full) hlive
  rates := by
    rw [← isSome_decided, (worked_of_step hstep).decided]
    have hsome : (decided u).isSome := by
      rw [isSome_decided]
      exact h.rates
    unfold decidedAfter
    split
    · rwa [Option.isSome_map]
    · rwa [Option.isSome_map]
    · rwa [Option.isSome_map]
    · exact hsome

theorem Leeching.near (h : Leeching specs s r t u ((takenBy (.peer a)).toList ++ rest) outbox)
    (hs : Sound s) (hs' : Sound s') (hgood : Verified sha1 content specs size s)
    (hok : TaskOk sha1 specs t) (hasking : Asking t)
    (hwritten : ∀ index spec, stage t.point = .written index spec → index ∈ s.tracker.got)
    (hindex : ∀ (i : ℕ) (spec : PieceSpec), specs[i]? = some spec → spec.index = i)
    (hpositive : ∀ (i : ℕ) (spec : PieceSpec), specs[i]? = some spec → 0 < spec.length)
    (hlive : Live t') (hstep : taskStep sha1 kind a s t = some (s', t')) :
    Leeching specs s' r t' u rest (outbox ++ sentBy a t t') := by
  have hturn := turn_of_step hstep
  have hspecs := hgood.specs_eq
  have hok' : TaskOk sha1 s.tracker.specs t := hspecs ▸ hok
  have hgrows := isComplete_mono hs hs' (hturn.taskOk hok').1 hturn.got_subset
  have hchoking := h.choking.near hok hstep
  have hknows : t.peerChoking = false ∨ (∃ hint, a = .receives .unchoke hint) →
      Full s.tracker.specs t.peerPieces := by
    intro hwhy
    rw [hspecs]
    refine h.learning.knows.resolve_right fun hunaware => ?_
    rcases hwhy with hfree | ⟨hint, ha⟩
    · cases hunaware.waits.symm.trans hfree
    · exact hunaware.silent (mem_of_takes ha)
  constructor
  · exact h.seeding
  · exact hchoking
  · refine h.atWork.turn hturn hs hs' hok' hlive hknows h.choking.drops fun index spec hw => ?_
    exact hgood.apart index (hwritten index spec hw)
  · exact h.fetching.near hchoking hasking hok hlive hspecs hindex hpositive hstep
  · exact h.learning.near hs hspecs hgrows hstep

theorem Leeching.far (h : Leeching specs s r t u inbox ((takenBy (.peer a)).toList ++ rest))
    (hr : Sound r) (hspecs : r.tracker.specs = specs) (hok : TaskOk sha1 specs t)
    (hwanted : Wanted a u) (hlive : Live u') (hstep : taskStep sha1 kind a r u = some (r', u')) :
    Leeching specs s r' t u' (inbox ++ sentBy a u u') rest where
  seeding := h.seeding.far hr hspecs hlive hstep
  choking := h.choking.far h.seeding.rates hstep
  atWork := h.atWork
  fetching := h.fetching.far h.choking h.seeding.full hspecs hok hlive hstep
  learning := h.learning.far h.seeding (hspecs ▸ hr.specs) hwanted hlive hstep

def Cancels (more : List Message) : Prop := ∀ msg ∈ more, ∃ index begin length, msg = .cancel index begin length

theorem mem_append_cancels {more : List Message} (hmore : Cancels more) (hm : msg ∈ inbox ++ more) :
    msg ∈ inbox ∨ ∃ index begin length, msg = .cancel index begin length :=
  (List.mem_append.mp hm).imp_right (hmore msg)

/-- Cancel messages of other tasks come along. -/
theorem Leeching.relayed {more more' : List Message} (h : Leeching specs s r t u inbox outbox)
    (hmore : Cancels more) (hmore' : Cancels more') :
    Leeching specs s r t u (inbox ++ more) (outbox ++ more') := by
  have hin : ∀ {m}, (∀ index begin length, m ≠ .cancel index begin length) → m ∈ inbox ++ more →
      m ∈ inbox := by
    intro m hne hm
    rcases mem_append_cancels hmore hm with hm | ⟨index, begin, length, heq⟩
    · exact hm
    · exact absurd heq (hne index begin length)
  have hout : ∀ {m}, (∀ index begin length, m ≠ .cancel index begin length) → m ∈ outbox ++ more' →
      m ∈ outbox := by
    intro m hne hm
    rcases mem_append_cancels hmore' hm with hm | ⟨index, begin, length, heq⟩
    · exact hm
    · exact absurd heq (hne index begin length)
  have hsilent : ∀ {m}, (∀ index begin length, m ≠ .cancel index begin length) → m ∉ more := by
    intro m hne hm
    obtain ⟨index, begin, length, heq⟩ := hmore m hm
    exact hne index begin length heq
  refine ⟨h.seeding, ⟨?_, h.choking.fresh, h.choking.drops⟩, h.atWork, ⟨h.fetching.missing, ?_⟩, ?_⟩
  · rw [chokedBy_append, h.choking.ahead]
    exact chokedBy_silent (hsilent (by simp)) (hsilent (by simp))
  · refine h.fetching.waiting.imp (List.mem_append_left _) fun hall i spec hcur hspec block hblock => ?_
    cases hall i spec hcur hspec block hblock with
    | here hm => exact .here hm
    | coming hm => exact .coming (List.mem_append_left _ hm)
    | reading hp => exact .reading hp
    | asked hm => exact .asked (List.mem_append_left _ hm)
    | later hp hlt => exact .later hp hlt
  · constructor
    · refine h.learning.knows.imp_right fun hunaware => ?_
      refine ⟨fun hm => hunaware.untold (hout (by simp) hm), hunaware.unheard,
        fun hm => hunaware.silent (hin (by simp) hm), hunaware.waits, hunaware.chokes, ?_⟩
      refine hunaware.coming.imp_right ?_
      rintro ⟨data, hm⟩
      exact ⟨data, List.mem_append_left _ hm⟩
    · intro hfull
      exact (h.learning.interest hfull).imp_right (Or.imp_left (List.mem_append_left _))
    · exact h.learning.finished
    · exact fun hm => h.learning.leaving (hout (by simp) hm)
    · exact fun data hm => h.learning.bitfields data (hin (by simp) hm)
    · exact fun i hm => h.learning.noHave i (hin (by simp) hm)

theorem Leeching.session (h : Leeching specs s r t u inbox outbox)
    (hpending : s'.tracker.pending ⊆ s.tracker.pending)
    (hgrows : s.tracker.isComplete → s'.tracker.isComplete) (hgot : r.tracker.got ⊆ r'.tracker.got) :
    Leeching specs s' r' t u inbox outbox where
  seeding := ⟨h.seeding.full.mono hgot, h.seeding.idle, h.seeding.loop, h.seeding.rates⟩
  choking := h.choking
  atWork := h.atWork.same hpending hgrows rfl (Or.inl rfl)
  fetching := h.fetching
  learning :=
    ⟨h.learning.knows, fun hfull => (h.learning.interest hfull).imp_left hgrows,
      fun hp => hgrows (h.learning.finished hp), fun hm => hgrows (h.learning.leaving hm),
      h.learning.bitfields, h.learning.noHave⟩

def newRates : Rates := ⟨true, false, 0, 0⟩

theorem leeching_start (hs : Sound s) (hspecs : s.tracker.specs = specs) (addr addr' : Address)
    (given given' : Bool) (rates : Option Rates) (hfull : Full specs r.tracker.got)
    (hpending : s.tracker.pending = ∅) :
    Leeching specs s r (newTask addr given rates) (newTask addr' given' (some newRates)) [] [] where
  seeding := ⟨hfull, rfl, Or.inl rfl, rfl⟩
  choking := ⟨rfl, fun _ => rfl, fun _ => rfl⟩
  atWork := by
    refine ⟨fun i hi => ?_, fun hfree => ?_⟩
    · rw [hpending] at hi
      cases hi
    · cases hfree
  fetching := by
    refine ⟨fun hrunning => ?_, Or.inr fun i spec hcur => ?_⟩
    · cases hrunning
    · cases hcur
  learning := by
    have hunaware : Unaware (newTask addr given rates) (newTask addr' given' (some newRates)) [] [] :=
      ⟨List.not_mem_nil, fun free => List.not_mem_nil, List.not_mem_nil, rfl, rfl, Or.inl rfl⟩
    refine ⟨Or.inr hunaware, fun hfull' => ?_, fun hp => ?_, fun hm => ?_, fun data hm => ?_,
      fun i => List.not_mem_nil⟩
    · refine Or.inl ((isComplete_iff hs hspecs).mpr fun i hi => ?_)
      cases hfull' i hi
    · cases hp
    · cases hm
    · cases hm

/-- When nothing is on its way and both tasks wait for a message, the client has every piece, or the
seed chokes it although it knows of its interest. -/
theorem Leeching.at_rest (h : Leeching specs s r t u [] []) (hok : TaskOk sha1 specs t)
    (hcontent : ∀ i spec, t.currentPiece = some i → specs[i]? = some spec →
      ((content i).length : ℤ) = spec.length)
    (harrived : ∀ i spec, t.currentPiece = some i → t.pieceSpec = some spec →
      ∃ arrivals, (∀ block ∈ arrivals, block ∈ blocks spec) ∧
        t.pieceBlocks = stored (content i) arrivals)
    (hp : t.point = .receive) (hq : u.point = .receive) :
    s.tracker.isComplete ∨ u.amChoking = true ∧ interested u = true := by
  by_cases hchokes : u.amChoking = true
  · have hknows : Full specs t.peerPieces := by
      refine h.learning.knows.resolve_right fun hunaware => ?_
      rcases hunaware.coming with hstarting | ⟨data, hm⟩
      · cases hq.symm.trans hstarting
      · cases hm
    rcases h.learning.interest hknows with hc | hm | hi
    · exact Or.inl hc
    · cases hm
    · exact Or.inr ⟨hchokes, hi⟩
  · left
    have hfree : t.peerChoking = false := by
      have hahead : t.peerChoking = u.amChoking := h.choking.ahead
      rw [hahead]
      simpa using hchokes
    apply h.atWork.busy hfree
    by_contra hsome
    obtain ⟨i, hcur⟩ := Option.ne_none_iff_exists'.mp hsome
    obtain ⟨spec, hspec, hat⟩ := hok.current i hcur
    obtain ⟨arrivals, harrivals, hblocks⟩ := harrived i spec hcur hspec
    have hmissing := h.fetching.missing (by rw [hp]; rfl) i spec hcur hspec
    have hall : ∀ block ∈ blocks spec, block ∈ arrivals := by
      intro block hblock
      rcases h.fetching.waiting with hm | haccounted
      · cases hm
      · cases haccounted i spec hcur hspec block hblock with
        | here hm =>
          rw [hblocks] at hm
          obtain ⟨other, hother, heq⟩ := ((stored_spec (content i) harrivals).2 _).mp hm
          have hbegin : block.1 = other.1 := (Prod.mk.inj heq).1
          exact block_unique hblock (harrivals other hother) hbegin ▸ hother
        | coming hm => cases hm
        | reading hreads => cases hq.symm.trans hreads
        | asked hm => cases hm
        | later hasks => cases hp.symm.trans hasks
    have hcomplete := (pieceComplete_iff (hcontent i spec hcur hat) harrivals).mpr hall
    rw [← hblocks, hmissing] at hcomplete
    cases hcomplete

end LeechingPairs
