import Aiobt.DiskSteps

/-! # Verified pieces on disk

Sessions whose storage calls are under way in any number of threads. -/
namespace DiskSessions

open ByteStrings PosixPaths FileSystem PieceTracker PeerMessages PieceEngine SessionTasks EngineTurns
open InterleavedProcesses TorrentStorage SliceLoops StorageRefinement FlatStore ServedPieces
open VerifiedPieces DiskCalls DiskContents DiskSteps

variable {sha1 : Bytes → Bytes} {content : ℕ → Bytes} {specs : List PieceSpec} {size : ℕ}
  {contents : List Bytes} {st : DiskStorage} {fs₀ : Files} {d d' : Disk} {w w' : Worker}
  {a : SessionAction} {hint : ℕ}

theorem workerOk_of_fresh (hfresh : Fresh w.proc) (hcall : w.call = .idle) (hthread : w.thread = none)
    (hlost : w.lost = []) : WorkerOk sha1 content specs size st d w := by
  have hlook : readRange w.proc = none ∧ storing w.proc = false := by
    cases hproc : w.proc with
    | peer t =>
      rw [hproc] at hfresh
      obtain ⟨addr, given, rates, rfl⟩ := hfresh
      exact ⟨rfl, rfl⟩
    | starter x =>
      rw [hproc] at hfresh
      have hp : x.point = .starting := hfresh
      exact ⟨by rw [readRange, hp], rfl⟩
  refine ⟨procOk_of_fresh hfresh, fun _ => hlook, ?_, ?_, fun hth => absurd hthread hth, ?_⟩
  · intro left offset remaining fetched heq
    cases hcall.symm.trans heq
  · intro left offset pos remaining heq
    cases hcall.symm.trans heq
  · rw [hlost]
    simp

theorem plain_of_init {pieceLength totalLength : ℤ} {raw : Bytes} {tr : Tracker} (h1 : 1 ≤ pieceLength)
    (h0 : 0 ≤ totalLength) (htr : PieceTracker.init pieceLength totalLength raw = some tr) :
    Plain tr.specs := by
  intro i spec hat
  have hlength := init_positive h1 h0 htr hat
  exact ⟨((init_tiles htr).inside i spec hat (by omega)).1, by omega⟩

theorem diskOk_start {tr : Tracker} {fs : Files}
    (hcount : tr.specs.length = tr.pieceCount.toNat) (hnone : tr.got = ∅)
    (hlaid : Laid fs 0 st.slices contents) (hsize : contents.flatten.length = size)
    (hdistinct : (locations fs st.slices).Nodup) :
    DiskOk sha1 content tr.specs size st fs ⟨newSession tr [], st, fs, false⟩ := by
  have hempty : ∀ i, i ∉ (newSession tr []).tracker.got := fun i hi => by
    rw [show (newSession tr []).tracker.got = ∅ from hnone] at hi
    cases hi
  refine ⟨rfl, ⟨contents, hlaid⟩, hdistinct, ⟨rfl, hcount, ?_, fun i hi => absurd hi (hempty i),
    fun i hi => absurd hi (hempty i)⟩, rfl, fun _ _ => rfl⟩
  show (diskContent st fs).length = size
  rw [← hsize]
  exact congrArg List.length hlaid.flatMap_content

theorem diskOk_of_reach {pieceLength totalLength : ℤ} {raw : Bytes} {tr : Tracker} {fs : Files}
    {c : Config Disk Worker} (h1 : 1 ≤ pieceLength) (h0 : 0 ≤ totalLength)
    (htr : PieceTracker.init pieceLength totalLength raw = some tr)
    (honly : OnlyContent sha1 content tr.specs) (hlaid : Laid fs 0 st.slices contents)
    (hsize : contents.flatten.length = totalLength.toNat) (hdistinct : (locations fs st.slices).Nodup)
    (hreach : Reach (diskStep sha1) Beginning ⟨⟨newSession tr [], st, fs, false⟩, []⟩ c) :
    DiskOk sha1 content tr.specs totalLength.toNat st fs c.shared := by
  have htiles := init_tiles htr
  have hplain := plain_of_init h1 h0 htr
  refine (hreach.rely_guarantee (L := WorkerOk sha1 content tr.specs totalLength.toNat st)
    (R := fun d d' => KeepsRight content tr.specs d.view d'.view)
    (diskOk_start (specs_length htr) (specs_eq_of_init htr).2.2.2.1 hlaid hsize hdistinct)
    (fun p hp => by cases hp) ?_ ?_ ?_).1
  · rintro c w - ⟨hfresh, hcall, hthread, hlost⟩
    exact workerOk_of_fresh hfresh hcall hthread hlost
  · intro c i a w d' w' _ _ hdisk hworker hstep
    exact diskStep_ok htiles honly hplain hdisk hworker hstep
  · intro d d' w _ hkeeps hworker
    exact hworker.mono honly hkeeps

theorem read_piece {i : ℕ} {spec : PieceSpec} (htiles : Tiles specs size) (hplain : Plain specs)
    (h : DiskOk sha1 content specs size st fs₀ d) (hat : specs[i]? = some spec) :
    st.read d.files spec.offset spec.length =
      .ok (flatRead d.view.storage spec.offset.toNat spec.length.toNat) := by
  obtain ⟨contents, hlaid, hflat, hsize⟩ := h.array
  obtain ⟨hoffset, hlength⟩ := hplain i spec hat
  have hinside := (htiles.inside i spec hat hlength).2
  obtain ⟨m, hm⟩ := Int.eq_ofNat_of_zero_le hoffset
  obtain ⟨n, hn⟩ := Int.eq_ofNat_of_zero_le hlength
  rw [hm, hn] at hinside ⊢
  rw [hflat]
  exact read_laid hlaid (by omega)

/-- In every run of the tasks of a session and of the threads of their storage calls, in whatever
order the threads work and whichever of them fail or are left behind, `read` gives each piece that
is had as it should be; other files stay as they were. -/
theorem had_pieces_on_disk {pieceLength totalLength : ℤ} {raw : Bytes} {tr : Tracker}
    {st : DiskStorage} {fs : Files} {c : Config Disk Worker} (h1 : 1 ≤ pieceLength)
    (h0 : 0 ≤ totalLength) (htr : PieceTracker.init pieceLength totalLength raw = some tr)
    (honly : OnlyContent sha1 content tr.specs) (hlaid : Laid fs 0 st.slices contents)
    (hsize : contents.flatten.length = totalLength.toNat) (hdistinct : (locations fs st.slices).Nodup)
    (hreach : Reach (diskStep sha1) Beginning ⟨⟨newSession tr [], st, fs, false⟩, []⟩ c) :
    (∀ i ∈ c.shared.session.tracker.got, ∃ spec, tr.specs[i]? = some spec ∧
      verifyPiece sha1 (content i) spec.hash = true ∧
      st.read c.shared.files spec.offset spec.length = .ok (content i)) ∧
    ∀ loc, loc ∉ locations fs st.slices → c.shared.files.node loc = fs.node loc := by
  have hok := diskOk_of_reach h1 h0 htr honly hlaid hsize hdistinct hreach
  refine ⟨fun i hi => ?_, hok.others⟩
  obtain ⟨spec, hat, hverify, hread⟩ := (hok.verified.stored i hi).flatRead_eq
  refine ⟨spec, hat, hverify, ?_⟩
  rw [read_piece (init_tiles htr) (plain_of_init h1 h0 htr) hok hat, hread]

def halves : DiskStorage :=
  ⟨⟨.slash, []⟩, [⟨⟨.slash, [[97]]⟩, 0, 0, 12⟩, ⟨⟨.slash, [[98]]⟩, 0, 12, 8⟩], 20, 20⟩

def emptyHalves : Files :=
  ((⟨[], fun _ => none⟩ : Files).put [[97]] (.file (List.replicate 12 0))).put [[98]]
    (.file (List.replicate 8 0))

theorem laid_halves : Laid emptyHalves 0 halves.slices [List.replicate 12 0, List.replicate 8 0] := by
  have hb : Laid emptyHalves 12 [⟨⟨.slash, [[98]]⟩, 0, (12 : ℕ), (8 : ℕ)⟩] [List.replicate 8 0] :=
    .push rfl rfl rfl .nil
  exact .push rfl rfl rfl hb

/-- A peer sends the only piece, and disconnects while the first file is written; another peer sends
it again, and its threads overtake the one that was left. -/
def overtakes (piece : Bytes) : List (Move Worker DiskAction) :=
  let joins (i : ℕ) : List (Move Worker DiskAction) :=
    [.spawn ⟨.peer (newTask ⟨[i], 6881⟩ true none), .idle, none, []⟩, .act i (.acts (.peer .starts)),
      .act i (.acts (.peer (.returns 0))), .act i (.acts (.peer (.receives (.bitfield [128]) 0))),
      .act i (.acts (.peer (.returns 0))), .act i (.acts (.peer (.receives .unchoke 0))),
      .act i (.acts (.peer (.returns 0))), .act i (.acts (.peer (.receives (.piece 0 0 piece) 0))),
      .act i .locks]
  joins 0 ++ [.act 0 (.stores 4), .act 0 .cancels] ++ joins 1 ++
    [.act 1 (.stores 7), .act 0 (.lostStores 0 9), .act 1 (.ends 0), .act 1 .locks, .act 1 (.ends 0)]

theorem had_pieces_on_disk_overtaken :
    ∃ tr c, PieceTracker.init 20 20 (List.replicate 20 7) = some tr ∧
      run (diskStep id) ⟨⟨newSession tr [], halves, emptyHalves, false⟩, []⟩
        (overtakes (List.replicate 20 7)) = some c ∧
      halves.read c.shared.files 0 20 = .ok (List.replicate 20 7) := by
  obtain ⟨tr, htr⟩ : ∃ tr, PieceTracker.init 20 20 (List.replicate 20 7) = some tr := ⟨_, rfl⟩
  have hone : tr.specs = [⟨0, 0, 20, List.replicate 20 7⟩] := by
    obtain rfl := Option.some.inj htr
    decide
  obtain ⟨c, hrun, hok, hhad⟩ : ∃ c, run (diskStep id)
      ⟨⟨newSession tr [], halves, emptyHalves, false⟩, []⟩ (overtakes (List.replicate 20 7)) = some c ∧
        Allowed (diskStep id) Beginning ⟨⟨newSession tr [], halves, emptyHalves, false⟩, []⟩
          (overtakes (List.replicate 20 7)) ∧ 0 ∈ c.shared.session.tracker.got := by
    obtain rfl := Option.some.inj htr
    exact ⟨_, rfl, by decide +kernel, by decide +kernel⟩
  obtain ⟨spec, hat, -, hread⟩ := (had_pieces_on_disk (by decide) (by decide) htr (only_sevens hone)
    laid_halves (by decide) (by decide) (reach_run hok hrun)).1 0 hhad
  rw [hone] at hat
  obtain rfl := Option.some.inj hat
  exact ⟨tr, c, htr, hrun, hread⟩

/-- A step changes the files only, or the engine takes one, on files that hold what is had. -/
inductive Engine (sha1 : Bytes → Bytes) (content : ℕ → Bytes) (specs : List PieceSpec) (size : ℕ)
    (act : DiskAction) (d d' : Disk) (w w' : Worker) : Prop
  | rests : d'.session = d.session → w'.proc = w.proc → Engine sha1 content specs size act d d' w w'
  | steps {a : SessionAction} {s : Session} {d₁ : Disk} : act = .acts a ∨ hears a = false →
      d₁.session = d.session → Verified sha1 content specs size d₁.view →
      program sha1 .files a d₁.view w.proc = some (s, w'.proc) → s.tracker = d'.session.tracker →
      Engine sha1 content specs size act d d' w w'

theorem engine_of_goesOn {act : DiskAction} {d₁ : Disk} {w₁ : Worker}
    (hgoes : goesOn sha1 a d₁ w₁ = some (d', w')) (ha : act = .acts a ∨ hears a = false)
    (hsession : d₁.session = d.session) (hproc : w₁.proc = w.proc)
    (hgood : Verified sha1 content specs size d₁.view) :
    Engine sha1 content specs size act d d' w w' := by
  obtain ⟨⟨s', p'⟩, hprog, heq⟩ := Option.map_eq_some_iff.mp hgoes
  obtain ⟨rfl, rfl⟩ := Prod.mk.inj heq
  rw [hproc] at hprog
  exact .steps ha hsession hgood hprog rfl

theorem hears_reply (hint : ℕ) (p : Proc) :
    hears (returnsTo hint p) = false ∧ hears (raisesTo p) = false ∧ hears (cancelsTo p) = false := by
  cases p with
  | peer t => exact ⟨rfl, rfl, rfl⟩
  | starter x => exact ⟨rfl, rfl, rfl⟩

section
variable (htiles : Tiles specs size) (honly : OnlyContent sha1 content specs) (hplain : Plain specs)
include htiles honly hplain

theorem engine_of_ends {act : DiskAction} (h : DiskOk sha1 content specs size st fs₀ d)
    (hw : WorkerOk sha1 content specs size st d w) (hends : callEnds sha1 hint d w = some (d', w')) :
    Engine sha1 content specs size act d d' w w' := by
  obtain ⟨hreturns, hraises, -⟩ := hears_reply hint w.proc
  unfold callEnds at hends
  split at hends
  · exact engine_of_goesOn hends (Or.inr hreturns) rfl rfl h.verified
  · simp only at hends
    split at hends
    · unfold readNext at hends
      split at hends
      · exact engine_of_goesOn hends (Or.inr hreturns) rfl rfl h.verified
      · obtain ⟨rfl, rfl⟩ := Prod.mk.inj (Option.some.inj hends)
        exact .rests rfl rfl
    · split at hends
      · exact engine_of_goesOn hends (Or.inr hraises) rfl rfl h.verified
      · cases hends
  · exact engine_of_goesOn hends (Or.inr hreturns) rfl rfl h.verified
  · next th _ hth =>
    obtain ⟨index, spec, sl', start, hpart⟩ := thread_right honly hw hth
    obtain ⟨files, hsync, hall⟩ := sync_ok htiles hplain h hpart
    obtain ⟨hok, -⟩ := hall false _ rfl
    simp only [hsync] at hends
    unfold writeNext at hends
    split at hends
    · exact engine_of_goesOn hends (Or.inr hreturns) rfl rfl hok.verified
    · obtain ⟨rfl, rfl⟩ := Prod.mk.inj (Option.some.inj hends)
      exact .rests rfl rfl
  · cases hends

theorem engine_of_step {act : DiskAction} (h : DiskOk sha1 content specs size st fs₀ d)
    (hw : WorkerOk sha1 content specs size st d w) (hstep : diskStep sha1 act d w = some (d', w')) :
    Engine sha1 content specs size act d d' w w' := by
  obtain ⟨-, hraises, hcancels⟩ := hears_reply 0 w.proc
  cases act with
  | acts b =>
    simp only [diskStep] at hstep
    split at hstep
    · exact engine_of_goesOn hstep (Or.inl rfl) rfl rfl h.verified
    · cases hstep
  | rechokes amChoking =>
    obtain ⟨⟨s', p'⟩, hprog, heq⟩ := Option.map_eq_some_iff.mp hstep
    obtain ⟨rfl, rfl⟩ := Prod.mk.inj heq
    exact .steps (Or.inr rfl) rfl h.verified hprog rfl
  | locks =>
    simp only [diskStep] at hstep
    split at hstep
    · split at hstep
      · cases hstep
      · obtain ⟨rfl, rfl⟩ := Prod.mk.inj (Option.some.inj hstep)
        exact .rests rfl rfl
    · cases hstep
  | fetches =>
    simp only [diskStep] at hstep
    split at hstep
    · next sl rest offset remaining fetched hcall =>
      split at hstep
      · next hlt =>
        obtain ⟨byte, hbyte, heq⟩ := Option.map_eq_some_iff.mp hstep
        obtain ⟨rfl, rfl⟩ := Prod.mk.inj heq
        obtain ⟨start, length, data, hread, -, hfetch⟩ := fetches_from h hw hcall hlt hbyte
        obtain ⟨⟨a, ha, hprog⟩, -⟩ := fetch_more sha1 hread hfetch
        exact .steps (Or.inr ha) rfl h.verified hprog rfl
      · cases hstep
    · cases hstep
  | stores k =>
    simp only [diskStep] at hstep
    split at hstep
    · cases hstep
    · obtain ⟨files, -, heq⟩ := Option.map_eq_some_iff.mp hstep
      obtain ⟨rfl, rfl⟩ := Prod.mk.inj heq
      exact .rests rfl rfl
  | ends hint => exact engine_of_ends htiles honly hplain h hw hstep
  | fails =>
    simp only [diskStep] at hstep
    split at hstep
    · exact engine_of_goesOn hstep (Or.inr hraises) rfl rfl h.verified
    · exact engine_of_goesOn hstep (Or.inr hraises) rfl rfl h.verified
    · cases hstep
  | cancels =>
    simp only [diskStep] at hstep
    split at hstep
    · cases hstep
    · exact engine_of_goesOn hstep (Or.inr hcancels) rfl rfl h.verified
    · exact engine_of_goesOn hstep (Or.inr hcancels) rfl rfl h.verified
  | lostStores i k =>
    simp only [diskStep] at hstep
    split at hstep
    · cases hstep
    · obtain ⟨files, -, heq⟩ := Option.map_eq_some_iff.mp hstep
      obtain ⟨rfl, rfl⟩ := Prod.mk.inj heq
      exact .rests rfl rfl
  | lostEnds i =>
    simp only [diskStep] at hstep
    split at hstep
    · cases hstep
    · obtain ⟨rfl, rfl⟩ := Prod.mk.inj (Option.some.inj hstep)
      exact .rests rfl rfl
  | lostFails i =>
    simp only [diskStep] at hstep
    obtain ⟨rfl, rfl⟩ := Prod.mk.inj (Option.some.inj hstep)
    exact .rests rfl rfl

end

def SentOk (sha1 : Bytes → Bytes) (content : ℕ → Bytes) (specs : List PieceSpec) (got : Finset ℕ)
    (w : Worker) : Prop :=
  ∀ t, w.proc = .peer t → Answers sha1 content specs got t.log ∧ ReadOk sha1 content specs got t

theorem SentOk.mono {got got' : Finset ℕ} (h : SentOk sha1 content specs got w) (hsub : got ⊆ got') :
    SentOk sha1 content specs got' w := by
  intro t ht
  obtain ⟨hanswers, hread⟩ := h t ht
  exact ⟨hanswers.mono hsub, hread.mono hsub⟩

theorem sentOk_of_fresh {got : Finset ℕ} (hfresh : Fresh w.proc) :
    SentOk sha1 content specs got w := by
  intro t ht
  rw [ht] at hfresh
  obtain ⟨addr, given, rates, rfl⟩ := hfresh
  refine ⟨⟨fun l offset length hl => ?_, fun l index begin block hl => ?_⟩, readOk_of_not_reading rfl⟩
  · simp [newTask] at hl
  · simp [newTask] at hl

theorem sentOk_step {act : DiskAction} (htiles : Tiles specs size)
    (hengine : Engine sha1 content specs size act d d' w w')
    (hwithin : ∀ b t, act = .acts (.peer b) → w.proc = .peer t → Within d.session t b)
    (hsent : SentOk sha1 content specs d.session.tracker.got w) :
    SentOk sha1 content specs d'.session.tracker.got w' ∧
      d.session.tracker.got ⊆ d'.session.tracker.got := by
  cases hengine with
  | rests hsession hproc =>
    rw [SentOk, hsession, hproc]
    exact ⟨hsent, Finset.Subset.refl _⟩
  | @steps a s d₁ ha hsession hgood hprog htracker =>
    rw [← htracker, ← hsession]
    rw [← hsession] at hsent hwithin
    cases hproc : w.proc with
    | peer t =>
      rw [hproc] at hprog
      obtain ⟨b, t', rfl, hproc', htask⟩ := program_peer hprog
      have hsub : d₁.session.tracker.got ⊆ s.tracker.got := (turn_of_step htask).got_subset
      have hasks : Within d₁.view t b := by
        rcases ha with ha | hnot
        · exact hwithin b t ha hproc
        · cases b with
          | receives msg hint => cases hnot
          | _ => trivial
      obtain ⟨hanswers, hread⟩ := logOk_step hgood htiles (hsent t hproc) hasks (logged_of_step htask)
      refine ⟨SentOk.mono (fun u hu => ?_) hsub, hsub⟩
      obtain rfl := Proc.peer.inj (hproc'.symm.trans hu)
      exact ⟨hanswers, hread⟩
    | starter x =>
      rw [hproc] at hprog
      obtain ⟨b, x', -, hproc', hstart⟩ := program_starter hprog
      have hsub : d₁.view.tracker.got ⊆ s.tracker.got := start_got_subset hstart
      refine ⟨fun u hu => ?_, hsub⟩
      cases hproc'.symm.trans hu

def taskOf : Proc → Option Task
  | .peer t => some t
  | .starter _ => none

def Asks (s : Session) (w : Worker) : DiskAction → Prop
  | .acts (.peer b) => ∀ t ∈ taskOf w.proc, Within s t b
  | _ => True

instance (s : Session) (w : Worker) (act : DiskAction) : Decidable (Asks s w act) := by
  unfold Asks
  split <;> infer_instance

/-- New processes have not begun, and Requests ask for ranges of pieces. -/
def Asking (c : Config Disk Worker) : Move Worker DiskAction → Prop
  | .spawn w => Beginning c (.spawn w)
  | .act i act => ∀ w ∈ c.procs[i]?, Asks c.shared.session w act

instance (c : Config Disk Worker) : (m : Move Worker DiskAction) → Decidable (Asking c m)
  | .spawn w => inferInstanceAs (Decidable (Beginning c (.spawn w)))
  | .act i act => inferInstanceAs (Decidable (∀ w ∈ c.procs[i]?, Asks c.shared.session w act))

/-- What is sent from the files of pieces that lie at offsets that are not negative. -/
theorem answers_of_reach {tr : Tracker} {fs : Files} {c : Config Disk Worker} {t : Task}
    (htiles : Tiles tr.specs size) (hplain : Plain tr.specs)
    (hcount : tr.specs.length = tr.pieceCount.toNat) (hnone : tr.got = ∅)
    (honly : OnlyContent sha1 content tr.specs) (hlaid : Laid fs 0 st.slices contents)
    (hsize : contents.flatten.length = size) (hdistinct : (locations fs st.slices).Nodup)
    (hreach : Reach (diskStep sha1) Asking ⟨⟨newSession tr [], st, fs, false⟩, []⟩ c)
    (hw : w ∈ c.procs) (ht : w.proc = .peer t) :
    Answers sha1 content tr.specs c.shared.session.tracker.got t.log := by
  have hboth := hreach.rely_guarantee (G := DiskOk sha1 content tr.specs size st fs)
    (L := fun d w => WorkerOk sha1 content tr.specs size st d w ∧
      SentOk sha1 content tr.specs d.session.tracker.got w)
    (R := fun d d' => KeepsRight content tr.specs d.view d'.view ∧
      d.session.tracker.got ⊆ d'.session.tracker.got)
    (diskOk_start hcount hnone hlaid hsize hdistinct) (fun p hp => by cases hp) ?_ ?_ ?_
  · exact ((hboth.2 w hw).2 t ht).1
  · rintro c w - ⟨hfresh, hcall, hthread, hlost⟩
    exact ⟨workerOk_of_fresh hfresh hcall hthread hlost, sentOk_of_fresh hfresh⟩
  · rintro c i a w d' w' hmove hp hdisk ⟨hworker, hsent⟩ hstep
    obtain ⟨hdisk', hworker', hkeeps⟩ := diskStep_ok htiles honly hplain hdisk hworker hstep
    obtain ⟨hsent', hsub⟩ := sentOk_step htiles
      (engine_of_step htiles honly hplain hdisk hworker hstep)
      (fun b t ha ht => by
        rw [ha] at hmove
        exact hmove w hp t (by rw [ht]; rfl)) hsent
    exact ⟨hdisk', ⟨hworker', hsent'⟩, hkeeps, hsub⟩
  · rintro d d' w _ ⟨hkeeps, hsub⟩ ⟨hworker, hsent⟩
    exact ⟨hworker.mono honly hkeeps, hsent.mono hsub⟩

/-- In every such run in which peers ask for ranges of pieces only, whatever is sent to a peer from
the files is a range of a verified piece that it asked for while it was not choked. -/
theorem sent_from_disk {pieceLength totalLength : ℤ} {raw : Bytes} {tr : Tracker}
    {st : DiskStorage} {fs : Files} {c : Config Disk Worker} {t : Task} (h1 : 1 ≤ pieceLength)
    (h0 : 0 ≤ totalLength) (htr : PieceTracker.init pieceLength totalLength raw = some tr)
    (honly : OnlyContent sha1 content tr.specs) (hlaid : Laid fs 0 st.slices contents)
    (hsize : contents.flatten.length = totalLength.toNat) (hdistinct : (locations fs st.slices).Nodup)
    (hreach : Reach (diskStep sha1) Asking ⟨⟨newSession tr [], st, fs, false⟩, []⟩ c)
    (hw : w ∈ c.procs) (ht : w.proc = .peer t) :
    Answers sha1 content tr.specs c.shared.session.tracker.got t.log :=
  answers_of_reach (init_tiles htr) (plain_of_init h1 h0 htr) (specs_length htr)
    (specs_eq_of_init htr).2.2.2.1 honly hlaid hsize hdistinct hreach hw ht

/-- The second peer then asks for a range across both files, and the thread that was left writes on
while it is read. -/
def asksAcross : List (Move Worker DiskAction) :=
  List.replicate 4 (.act 1 (.acts (.peer (.returns 0)))) ++
    [.act 1 (.acts (.peer (.receives (.request 0 10 4) 0))), .act 1 .fetches,
      .act 0 (.lostStores 0 11), .act 1 .fetches, .act 1 (.ends 0), .act 0 (.lostEnds 0),
      .act 1 .fetches, .act 1 .fetches, .act 1 (.ends 0)]

theorem sent_from_disk_across :
    ∃ tr c w t, PieceTracker.init 20 20 (List.replicate 20 7) = some tr ∧
      run (diskStep id) ⟨⟨newSession tr [], halves, emptyHalves, false⟩, []⟩
        (overtakes (List.replicate 20 7) ++ asksAcross) = some c ∧
      w ∈ c.procs ∧ w.proc = .peer t ∧ .sent (.piece 0 10 (List.replicate 4 7)) ∈ t.log ∧
      Answers id (fun _ => List.replicate 20 7) tr.specs c.shared.session.tracker.got t.log := by
  obtain ⟨tr, htr⟩ : ∃ tr, PieceTracker.init 20 20 (List.replicate 20 7) = some tr := ⟨_, rfl⟩
  have hone : tr.specs = [⟨0, 0, 20, List.replicate 20 7⟩] := by
    obtain rfl := Option.some.inj htr
    decide
  obtain ⟨c, hrun, hok, w, hw, hsent⟩ : ∃ c, run (diskStep id)
      ⟨⟨newSession tr [], halves, emptyHalves, false⟩, []⟩
        (overtakes (List.replicate 20 7) ++ asksAcross) = some c ∧
        Allowed (diskStep id) Asking ⟨⟨newSession tr [], halves, emptyHalves, false⟩, []⟩
          (overtakes (List.replicate 20 7) ++ asksAcross) ∧
        ∃ w ∈ c.procs, .sent (.piece 0 10 (List.replicate 4 7)) ∈ logOf w.proc := by
    obtain rfl := Option.some.inj htr
    exact ⟨_, rfl, by decide +kernel, by decide +kernel⟩
  cases hproc : w.proc with
  | peer t =>
    rw [hproc] at hsent
    exact ⟨tr, c, w, t, htr, hrun, hw, hproc, hsent, sent_from_disk (by decide) (by decide) htr
      (only_sevens hone) laid_halves (by decide) (by decide) (reach_run hok hrun) hw hproc⟩
  | starter x =>
    rw [hproc] at hsent
    cases hsent

end DiskSessions
