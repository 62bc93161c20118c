import Aiobt.DiskSessions

/-! # What is sent from either storage

A `CompactStorage` is one file of all bytes. A `DiskStorage` splits a range over the files of its
layout, and gives the bytes of a piece only where the files of the layout are different files. -/
namespace ServedStorages

open ByteStrings PosixPaths FileSystem PieceTracker PeerMessages PieceEngine SessionTasks EngineTurns
open InterleavedProcesses TorrentStorage SliceLoops StorageRefinement FlatStore PeerRuns ServedPieces
open VerifiedPieces DiskCalls DiskContents DiskSteps DiskSessions
open SurrogateUtf8 (PyStr)
open TorrentMetadata (FileEntry)

variable {sha1 : Bytes → Bytes} {content : ℕ → Bytes} {specs : List PieceSpec} {size : ℕ}
  {st : DiskStorage} {fs : Files} {d d' : Disk} {w w' : Worker} {p p' : Proc} {s s' : Session}
  {t : Task}

def Barren (specs : List PieceSpec) : Prop :=
  ∀ (i : ℕ) (spec : PieceSpec), specs[i]? = some spec → spec.length < 0

theorem got_empty (hbarren : Barren specs) (h : Verified sha1 content specs size s) :
    s.tracker.got = ∅ := by
  refine Finset.eq_empty_of_forall_notMem fun i hi => ?_
  obtain ⟨spec, hat, -, hlength, -⟩ := h.stored i hi
  have hnegative := hbarren i spec hat
  omega

theorem not_storing (hbarren : Barren specs) (honly : OnlyContent sha1 content specs)
    (h : ProcOk sha1 content specs s p) : storing p = false := by
  cases p with
  | peer t =>
    cases hp : t.point with
    | write index spec assembled =>
      obtain ⟨hat, -, hlength⟩ := content_of_write honly h hp
      have hnegative := hbarren index spec hat
      omega
    | _ => rw [storing, hp]
  | starter x => rfl

theorem start_storage {a : StartAction} {x x' : Starter} (h : startStep sha1 a s x = some (s', x')) :
    s'.storage = s.storage := by
  have hscan : ∀ {s₁ : Session} {todo : List ℕ}, scanFrom s₁ x todo = (s', x') →
      s₁.storage = s.storage → s'.storage = s.storage := by
    intro s₁ todo heq hsame
    have hbegins := (scanFrom_begins s₁ x todo).1
    rw [heq] at hbegins
    exact hbegins.trans hsame
  cases startTurn_of_step h with
  | ends hs => rw [hs]
  | checks hpoint heq =>
    obtain ⟨hs, -⟩ := checkResume_spec s x
    rw [heq] at hs
    exact hs.storage
  | scans todo hpoint heq => exact hscan heq rfl
  | marks hpoint hverify heq => exact hscan heq rfl
  | fetches hpoint hbyte hs => rw [hs]

theorem program_storage {a : SessionAction} (h : program sha1 .files a s p = some (s', p'))
    (hnot : storing p = false) : s'.storage = s.storage := by
  cases p with
  | peer t =>
    obtain ⟨b, t', rfl, rfl, hstep⟩ := program_peer h
    exact peer_storage hstep hnot
  | starter x =>
    obtain ⟨b, x', rfl, rfl, hstep⟩ := program_starter h
    exact start_storage hstep

structure Untouched (sha1 : Bytes → Bytes) (content : ℕ → Bytes) (specs : List PieceSpec) (size : ℕ)
    (st : DiskStorage) (fs : Files) (d : Disk) : Prop where
  storage : d.storage = st
  files : d.files = fs
  verified : Verified sha1 content specs size d.view

/-- A scan tries to read pieces of negative lengths; nothing is written, and nothing read for a
peer. -/
structure Fruitless (sha1 : Bytes → Bytes) (content : ℕ → Bytes) (specs : List PieceSpec) (d : Disk)
    (w : Worker) : Prop where
  proc : ProcOk sha1 content specs d.view w.proc
  call : w.call = .idle ∨ ∃ x slices offset remaining, w.proc = .starter x ∧
    w.call = .reading slices offset remaining 0 ∧ remaining < 0
  thread : w.thread = none
  lost : w.lost = []
  sends : ∀ t, w.proc = .peer t → reading t = false ∧ Answers sha1 content specs ∅ t.log

theorem fruitless_of_fresh (hfresh : Fresh w.proc) (hcall : w.call = .idle) (hthread : w.thread = none)
    (hlost : w.lost = []) : Fruitless sha1 content specs d w := by
  refine ⟨procOk_of_fresh hfresh, Or.inl hcall, hthread, hlost, fun t ht => ?_⟩
  have hsent : Answers sha1 content specs ∅ t.log := (sentOk_of_fresh hfresh t ht).1
  rw [ht] at hfresh
  obtain ⟨addr, given, rates, rfl⟩ := hfresh
  exact ⟨rfl, hsent⟩

/-- A peer is sent nothing of a piece where nothing is had. -/
theorem sends_nothing {a : SessionAction} (hbarren : Barren specs)
    (hgood : Verified sha1 content specs size s)
    (hsends : ∀ t, p = .peer t → reading t = false ∧ Answers sha1 content specs ∅ t.log)
    (hprog : program sha1 .files a s p = some (s', p')) (hp' : p' = .peer t) :
    reading t = false ∧ Answers sha1 content specs ∅ t.log := by
  subst hp'
  cases p with
  | starter x =>
    obtain ⟨b, x', -, hp', -⟩ := program_starter hprog
    cases hp'
  | peer u =>
    obtain ⟨b, u', -, hp', hstep⟩ := program_peer hprog
    obtain rfl := Proc.peer.inj hp'
    obtain ⟨hread, hanswers⟩ := hsends u rfl
    cases logged_of_step hstep with
    | quiet hquiet =>
      obtain ⟨added, hlog, hadded⟩ := hquiet.log
      refine ⟨hquiet.point, ?_⟩
      rw [hlog]
      exact hanswers.append_quiet hadded
    | stays hlog hpoint =>
      refine ⟨?_, by rwa [hlog]⟩
      rw [reading, hpoint]
      exact hread
    | request _ _ _ hgot _ _ _ =>
      rw [got_empty hbarren hgood] at hgot
      cases hgot
    | fetches hp _ _ _ =>
      rw [reading, hp] at hread
      cases hread
    | answers hp _ _ _ =>
      rw [reading, hp] at hread
      cases hread

section
variable (htiles : Tiles specs size) (honly : OnlyContent sha1 content specs)
  (hbarren : Barren specs)
include htiles honly hbarren

/-- A step of the engine, which comes to a read of a scan at most. -/
theorem goesOn_fruitless {a : SessionAction} (h : Untouched sha1 content specs size st fs d)
    (hw : Fruitless sha1 content specs d w) (hgoes : goesOn sha1 a d w = some (d', w')) :
    Untouched sha1 content specs size st fs d' ∧ Fruitless sha1 content specs d' w' ∧
      KeepsRight content specs d.view d'.view := by
  obtain ⟨⟨s', p'⟩, hprog, heq⟩ := Option.map_eq_some_iff.mp hgoes
  obtain ⟨rfl, rfl⟩ := Prod.mk.inj heq
  obtain ⟨hgood, hproc, hkeeps⟩ := verified_engine htiles honly h.verified hw.proc hprog
    (program_storage hprog (not_storing hbarren honly hw.proc))
  have hsends := fun t ht => sends_nothing (t := t) hbarren h.verified hw.sends hprog ht
  refine ⟨⟨h.storage, h.files, hgood⟩, ⟨hproc, ?_, rfl, hw.lost, hsends⟩, hkeeps⟩
  have hstores := not_storing hbarren honly hproc
  cases p' with
  | peer t =>
    have hreads := (hsends t rfl).1
    left
    cases hp : t.point with
    | read index begin length offset data =>
      rw [reading, hp] at hreads
      cases hreads
    | write index spec assembled =>
      rw [storing, hp] at hstores
      cases hstores
    | _ => rw [callOf, hp]
  | starter x =>
    cases hp : x.point with
    | read index spec data todo =>
      simp only [ProcOk, hp] at hproc
      refine Or.inr ⟨x, d.storage.slicesFor spec.offset spec.length, spec.offset, spec.length, rfl, ?_,
        hbarren index spec hproc.1⟩
      rw [callOf, hp]
    | _ => exact Or.inl (by rw [callOf, hp])

/-- The choking manager decides for a peer, which is in no call. -/
theorem rechokes_fruitless {amChoking : Bool} (h : Untouched sha1 content specs size st fs d)
    (hw : Fruitless sha1 content specs d w)
    (hprog : program sha1 .files (.peer (.rechokes amChoking)) d.view w.proc = some (s', p')) :
    Untouched sha1 content specs size st fs { d with session := s' } ∧
      Fruitless sha1 content specs { d with session := s' } { w with proc := p' } ∧
      KeepsRight content specs d.view (Disk.view { d with session := s' }) := by
  obtain ⟨hgood, hproc, hkeeps⟩ := verified_engine htiles honly h.verified hw.proc hprog
    (program_storage hprog (not_storing hbarren honly hw.proc))
  have hidle : w.call = .idle := by
    rcases hw.call with hidle | ⟨x, slices, offset, remaining, hx, -⟩
    · exact hidle
    · rw [hx] at hprog
      cases hprog
  exact ⟨⟨h.storage, h.files, hgood⟩, ⟨hproc, Or.inl hidle, hw.thread, hw.lost,
    fun t ht => sends_nothing hbarren h.verified hw.sends hprog ht⟩, hkeeps⟩

theorem diskStep_fruitless {act : DiskAction} (h : Untouched sha1 content specs size st fs d)
    (hw : Fruitless sha1 content specs d w) (hstep : diskStep sha1 act d w = some (d', w')) :
    Untouched sha1 content specs size st fs d' ∧ Fruitless sha1 content specs d' w' ∧
      KeepsRight content specs d.view d'.view := by
  have hgoes := fun {a : SessionAction} (hgoes : goesOn sha1 a d w = some (d', w')) =>
    goesOn_fruitless htiles honly hbarren h hw hgoes
  have hthread := hw.thread
  have hlost := hw.lost
  cases act with
  | rechokes amChoking =>
    obtain ⟨⟨s', p'⟩, hprog, heq⟩ := Option.map_eq_some_iff.mp hstep
    obtain ⟨rfl, rfl⟩ := Prod.mk.inj heq
    exact rechokes_fruitless htiles honly hbarren h hw hprog
  | stores k =>
    simp only [diskStep, hthread] at hstep
    cases hstep
  | lostStores i k =>
    simp only [diskStep, hlost, List.getElem?_nil] at hstep
    cases hstep
  | lostEnds i =>
    simp only [diskStep, hlost, List.getElem?_nil] at hstep
    cases hstep
  | lostFails i =>
    simp only [diskStep, hlost, List.eraseIdx_nil] at hstep
    obtain ⟨rfl, rfl⟩ := Prod.mk.inj (Option.some.inj hstep)
    exact ⟨h, ⟨hw.proc, hw.call, hw.thread, rfl, hw.sends⟩, .of_same rfl⟩
  | acts b =>
    rcases hw.call with hcall | ⟨x, slices, offset, remaining, -, hcall, -⟩
    · simp only [diskStep, hcall] at hstep
      exact hgoes hstep
    · simp only [diskStep, hcall] at hstep
      cases hstep
  | locks =>
    rcases hw.call with hcall | ⟨x, slices, offset, remaining, -, hcall, -⟩
    · simp only [diskStep, hcall] at hstep
      cases hstep
    · simp only [diskStep, hcall] at hstep
      cases hstep
  | fetches =>
    rcases hw.call with hcall | ⟨x, slices, offset, remaining, -, hcall, hnegative⟩
    · simp only [diskStep, hcall] at hstep
      cases hstep
    · cases slices with
      | nil =>
        simp only [diskStep, hcall] at hstep
        cases hstep
      | cons sl rest =>
        have hspan : span sl offset remaining ≤ remaining := min_le_left _ _
        simp only [diskStep, hcall] at hstep
        rw [if_neg (by omega)] at hstep
        cases hstep
  | ends hint =>
    rcases hw.call with hcall | ⟨x, slices, offset, remaining, -, hcall, hnegative⟩
    · simp only [diskStep, callEnds, hcall] at hstep
      cases hstep
    · cases slices with
      | nil =>
        simp only [diskStep, callEnds, hcall] at hstep
        exact hgoes hstep
      | cons sl rest =>
        have hspan : span sl offset remaining ≤ remaining := min_le_left _ _
        simp only [diskStep, callEnds, hcall] at hstep
        rw [if_neg (by omega), if_pos (Or.inl (by omega))] at hstep
        exact hgoes hstep
  | fails =>
    rcases hw.call with hcall | ⟨x, slices, offset, remaining, -, hcall, -⟩
    · simp only [diskStep, hcall] at hstep
      cases hstep
    · simp only [diskStep, hcall] at hstep
      exact hgoes hstep
  | cancels =>
    rcases hw.call with hcall | ⟨x, slices, offset, remaining, -, hcall, -⟩
    · simp only [diskStep, hcall] at hstep
      cases hstep
    · simp only [diskStep, hcall] at hstep
      exact hgoes hstep

end

/-- What is sent where no piece has a length that data could have. -/
theorem answers_of_barren {tr : Tracker} {c : Config Disk Worker} (hbarren : Barren tr.specs)
    (htiles : Tiles tr.specs size) (hcount : tr.specs.length = tr.pieceCount.toNat)
    (hnone : tr.got = ∅) (honly : OnlyContent sha1 content tr.specs)
    (hsize : (diskContent st fs).length = size)
    (hreach : Reach (diskStep sha1) Asking ⟨⟨newSession tr [], st, fs, false⟩, []⟩ c)
    (hw : w ∈ c.procs) (ht : w.proc = .peer t) :
    Answers sha1 content tr.specs c.shared.session.tracker.got t.log := by
  have hempty : ∀ i, i ∉ (newSession tr []).tracker.got := fun i hi => by
    rw [show (newSession tr []).tracker.got = ∅ from hnone] at hi
    cases hi
  have hboth := hreach.rely_guarantee (G := Untouched sha1 content tr.specs size st fs)
    (L := Fruitless sha1 content tr.specs)
    (R := fun d d' => KeepsRight content tr.specs d.view d'.view)
    ⟨rfl, rfl, rfl, hcount, hsize, fun i hi => absurd hi (hempty i), fun i hi => absurd hi (hempty i)⟩
    (fun p hp => by cases hp) ?_ ?_ ?_
  · exact ((hboth.2 w hw).sends t ht).2.mono (Finset.empty_subset _)
  · rintro c w - ⟨hfresh, hcall, hthread, hlost⟩
    exact fruitless_of_fresh hfresh hcall hthread hlost
  · rintro c i a w d' w' - - hdisk hworker hstep
    exact diskStep_fruitless htiles honly hbarren hdisk hworker hstep
  · rintro d d' w - hkeeps hworker
    exact ⟨procOk_stable hworker.proc hkeeps, hworker.call, hworker.thread, hworker.lost,
      hworker.sends⟩

/-- Files of the lengths that the layout gives them, at locations of which no two are one. -/
structure LaidOut (st : DiskStorage) (fs : Files) (size : ℕ) : Prop where
  laid : ∃ contents, Laid fs 0 st.slices contents ∧ contents.flatten.length = size
  distinct : (locations fs st.slices).Nodup

theorem LaidOut.size_eq (h : LaidOut st fs size) : (diskContent st fs).length = size := by
  obtain ⟨contents, hlaid, hsize⟩ := h.laid
  rw [← hsize]
  exact congrArg List.length hlaid.flatMap_content

theorem laidOut_of_fresh {root name : PyStr} {files : Option (List FileEntry)}
    {totalLength pieceLength : ℤ} {fs₀ : Files} (hlen : ∀ e ∈ layoutEntries files totalLength, 0 ≤ e.length)
    (hfresh : StorageRefinement.Fresh fs₀ (layoutPaths (parse root) files name totalLength))
    (hprepared : ((DiskStorage.new root).opened totalLength pieceLength).prepareFiles files name fs₀ =
      (.ok (), st, fs))
    (hsize : ((layoutEntries files totalLength).map fun e => e.length.toNat).sum = size) :
    LaidOut st fs size := by
  obtain ⟨st', fs', hprep, hholds⟩ :=
    prepareFiles_fresh root files name totalLength pieceLength hlen hfresh
  obtain ⟨-, heq⟩ := Prod.mk.inj (hprepared.symm.trans hprep)
  obtain ⟨rfl, rfl⟩ := Prod.mk.inj heq
  obtain ⟨contents, hlaid, hflat⟩ := hholds.laid
  refine ⟨⟨contents, hlaid, ?_⟩, hholds.distinct⟩
  rw [hflat, ← hsize, zeros, List.length_flatten, List.map_map]
  simp [Function.comp_def]

theorem plain_or_barren {pieceLength totalLength : ℤ} {raw : Bytes} {tr : Tracker}
    (htr : PieceTracker.init pieceLength totalLength raw = some tr) : Plain tr.specs ∨ Barren tr.specs := by
  obtain ⟨hne, hspecs, -⟩ := specs_eq_of_init htr
  by_cases hneg : pieceLength < 0
  · right
    intro i spec hat
    exact buildSpecsLoop_negative hneg (hspecs ▸ List.mem_of_getElem? hat)
  · left
    by_cases h0 : totalLength < 0
    · have hnil : tr.specs = [] := by
        rw [hspecs, Int.toNat_of_nonpos (pieceCount_nonpos htr (by omega) h0)]
        rfl
      intro i spec hat
      rw [hnil] at hat
      cases hat
    · exact plain_of_init (by omega) (by omega) htr

/-- What is sent from the files of a layout, whatever the lengths are. -/
theorem answers_from_disk {pieceLength totalLength : ℤ} {raw : Bytes} {tr : Tracker}
    {c : Config Disk Worker} (htr : PieceTracker.init pieceLength totalLength raw = some tr)
    (honly : OnlyContent sha1 content tr.specs) (hlaid : LaidOut st fs totalLength.toNat)
    (hreach : Reach (diskStep sha1) Asking ⟨⟨newSession tr [], st, fs, false⟩, []⟩ c)
    (hw : w ∈ c.procs) (ht : w.proc = .peer t) :
    Answers sha1 content tr.specs c.shared.session.tracker.got t.log := by
  have hnone := (specs_eq_of_init htr).2.2.2.1
  rcases plain_or_barren htr with hplain | hbarren
  · obtain ⟨contents, hfiles, hsize⟩ := hlaid.laid
    exact answers_of_reach (init_tiles htr) hplain (specs_length htr) hnone honly hfiles hsize
      hlaid.distinct hreach hw ht
  · exact answers_of_barren hbarren (init_tiles htr) (specs_length htr) hnone honly hlaid.size_eq
      hreach hw ht

def ofPeer : Move Task Action → Move Proc SessionAction
  | .spawn t => .spawn (.peer t)
  | .act i a => .act i (.peer a)

/-- The first peer sends a Request, and the range is read and sent. -/
def asks (index begin length : ℕ) : List (Move Task Action) :=
  [.act 0 (.receives (.request index begin length) 0)] ++ List.replicate length (.act 0 .fetches) ++
    [.act 0 (.returns 0)]

def twoFiles : Except OsError Unit × DiskStorage × Files :=
  ((DiskStorage.new [47]).opened 20 20).prepareFiles (some [⟨[[97]], 12⟩, ⟨[[98]], 8⟩]) [110]
    ⟨[], fun _ => none⟩

def twoFilesAt (tr : Tracker) : Config Disk Worker :=
  ⟨⟨newSession tr [], twoFiles.2.1, twoFiles.2.2, false⟩, []⟩

def listedTwice : Except OsError Unit × DiskStorage × Files :=
  ((DiskStorage.new [47]).opened 40 20).prepareFiles (some [⟨[[97]], 20⟩, ⟨[[97]], 20⟩]) [110]
    ⟨[], fun _ => none⟩

/-- A peer delivers two pieces, each into its file, and then asks for the first. -/
def deliversTwo : List (Move Worker DiskAction) :=
  let acts (a : Action) : Move Worker DiskAction := .act 0 (.acts (.peer a))
  let delivers (index : ℕ) (piece : Bytes) : List (Move Worker DiskAction) :=
    [acts (.receives (.piece index 0 piece) 0), .act 0 .locks, .act 0 (.ends 0), acts (.returns 0),
      acts (.returns 0), acts (.returns 0)]
  [.spawn ⟨.peer (newTask ⟨[0], 6881⟩ true none), .idle, none, []⟩, acts .starts, acts (.returns 0),
      acts (.receives (.bitfield [192]) 0), acts (.returns 0), acts (.receives .unchoke 0),
      acts (.returns 0)] ++
    delivers 0 (List.replicate 20 7) ++ delivers 1 (List.replicate 20 8) ++
    [acts (.returns 0), acts (.receives (.request 0 0 20) 0)] ++ List.replicate 20 (.act 0 .fetches) ++
    [.act 0 (.ends 0)]

def listedTwiceAt (tr : Tracker) : Config Disk Worker :=
  ⟨⟨newSession tr [], listedTwice.2.1, listedTwice.2.2, false⟩, []⟩

/-- The second piece takes the place of the first. -/
theorem listed_twice_served :
    ∃ tr c, init 20 40 (List.replicate 20 7 ++ List.replicate 20 8) = some tr ∧
      listedTwice.1 = .ok () ∧ run (diskStep id) (listedTwiceAt tr) deliversTwo = some c ∧
      Allowed (diskStep id) Asking (listedTwiceAt tr) deliversTwo ∧
      (∃ w ∈ c.procs, .sent (.piece 0 0 (List.replicate 20 8)) ∈ logOf w.proc) ∧
      (tr.specs[0]?).map (fun spec => verifyPiece id (List.replicate 20 8) spec.hash) = some false := by
  obtain ⟨tr, htr⟩ : ∃ tr, init 20 40 (List.replicate 20 7 ++ List.replicate 20 8) = some tr := ⟨_, rfl⟩
  have hrun : (run (diskStep id) (listedTwiceAt tr) deliversTwo).map (fun c => decide
      (∃ w ∈ c.procs, .sent (.piece 0 0 (List.replicate 20 8)) ∈ logOf w.proc)) = some true := by
    obtain rfl := Option.some.inj htr
    decide +kernel
  obtain ⟨c, hc, hsent⟩ := Option.map_eq_some_iff.mp hrun
  refine ⟨tr, c, htr, by decide, hc, ?_, of_decide_eq_true hsent, ?_⟩
  · obtain rfl := Option.some.inj htr
    decide +kernel
  · obtain rfl := Option.some.inj htr
    decide +kernel

end ServedStorages
