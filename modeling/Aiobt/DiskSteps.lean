import Aiobt.DiskContents

/-! # Steps of storage calls

What the engine does between calls, and what each step of a call or of its threads keeps. -/
namespace DiskSteps

open ByteStrings PosixPaths FileSystem PieceTracker PeerMessages PieceEngine SessionTasks EngineTurns
open InterleavedProcesses TorrentStorage SliceLoops StorageRefinement FlatStore ServedPieces
open VerifiedPieces DiskCalls DiskContents

variable {sha1 : Bytes → Bytes} {content : ℕ → Bytes} {specs : List PieceSpec} {size : ℕ}
  {slices : List FileSlice} {sl : FileSlice} {st : DiskStorage} {fs₀ : Files} {d d' : Disk}
  {w w' : Worker} {th : Writer}

variable {a : SessionAction} {b : PieceEngine.Action} {p p' : Proc} {s s' : Session} {t t' : Task} {hint : ℕ}

/-- The engine stores nothing of its own, and a read that it comes to begins. -/
def Calm (sha1 : Bytes → Bytes) (a : SessionAction) (s : Session) (p : Proc) : Prop :=
  ∀ s' p', program sha1 .files a s p = some (s', p') → s'.storage = s.storage ∧
    ∀ start length data, readRange p' = some (start, length, data) →
      data = [] ∧ 0 ≤ start ∧ 0 ≤ length

def Plain (specs : List PieceSpec) : Prop :=
  ∀ (i : ℕ) (spec : PieceSpec), specs[i]? = some spec → 0 ≤ spec.offset ∧ 0 ≤ spec.length

def hears : SessionAction → Bool
  | .peer (.receives _ _) => true
  | _ => false

theorem reading_of_range (h : readRange (.peer t) = none) : reading t = false := by
  cases hp : t.point with
  | read index begin length offset data =>
    rw [readRange, hp] at h
    cases h
  | _ => rw [reading, hp]

theorem peer_reads (hstep : taskStep sha1 .files b s t = some (s', t'))
    (hnot : reading t = false ∨ (∃ hint, b = .returns hint) ∨ b = .raises)
    {index begin length : ℕ} {offset : ℤ} {data : Bytes}
    (hp' : t'.point = .read index begin length offset data) :
    data = [] ∧ ∃ spec, s.tracker.specs[index]? = some spec ∧ offset = spec.offset + begin := by
  have hreads : reading t' = true := by
    rw [reading, hp']
  have hbefore : reading t = false := by
    by_cases hp : ∃ index begin length offset data, t.point = .read index begin length offset data
    · obtain ⟨index₀, begin₀, length₀, offset₀, data₀, hp⟩ := hp
      rcases hnot with hnot | ⟨hint, rfl⟩ | rfl
      · exact hnot
      · simp only [taskStep, resume, hp] at hstep
        split at hstep
        · cases hstep
        · split at hstep
          · obtain ⟨-, rfl⟩ := Prod.mk.inj (Option.some.inj hstep)
            cases hp'
          · obtain ⟨-, rfl⟩ := Prod.mk.inj (Option.some.inj hstep)
            cases hp'
      · simp only [taskStep, hp] at hstep
        obtain ⟨-, rfl⟩ := Prod.mk.inj (Option.some.inj hstep)
        cases hp'
    · unfold reading
      split
      · next hread => exact absurd ⟨_, _, _, _, _, hread⟩ hp
      · rfl
  cases logged_of_step hstep with
  | quiet hquiet =>
    rw [hquiet.point] at hreads
    cases hreads
  | stays _ hpoint =>
    rw [reading, ← hpoint, hp'] at hbefore
    cases hbefore
  | request _ _ _ _ hat _ hpoint =>
    obtain ⟨rfl, rfl, rfl, rfl, rfl⟩ := Await.read.inj (hpoint.symm.trans hp')
    exact ⟨rfl, _, hat, rfl⟩
  | fetches hp _ _ _ =>
    rw [reading, hp] at hbefore
    cases hbefore
  | answers _ _ _ hnone =>
    rw [hnone] at hreads
    cases hreads

theorem afterCheck_stops (s : Session) (st : Starter) :
    (afterCheck s st).2.point = .emitStarted ∧ (afterCheck s st).1.storage = s.storage :=
  ⟨(afterCheck_undisturbed s st).2, (afterCheck_undisturbed s st).1.storage⟩

theorem scanFrom_begins (s : Session) (st : Starter) (todo : List ℕ) :
    (scanFrom s st todo).1.storage = s.storage ∧
      ∀ index spec data rest, (scanFrom s st todo).2.point = .read index spec data rest → data = [] := by
  induction todo with
  | nil =>
    obtain ⟨hpoint, hsame⟩ := afterCheck_stops { s with bytesDownloaded :=
      ∑ i ∈ s.tracker.got, ((s.tracker.specs[i]?).map PieceSpec.length).getD 0 } st
    refine ⟨hsame, fun index spec data rest hread => ?_⟩
    rw [scanFrom, hpoint] at hread
    cases hread
  | cons idx todo ih =>
    unfold scanFrom
    split
    · exact ih
    · split
      · exact ⟨rfl, fun _ _ _ _ hread => by cases hread⟩
      · refine ⟨rfl, fun _ _ _ _ hread => ?_⟩
        exact (StartPoint.read.inj hread).2.2.1.symm

/-- A scan stores nothing, and begins to read what it comes to. -/
theorem start_calm {b : StartAction} {st st' : Starter}
    (hstep : startStep sha1 b s st = some (s', st')) (hb : b ≠ .fetches ∨ readRange (.starter st) = none) :
    s'.storage = s.storage ∧
      ∀ index spec data rest, st'.point = .read index spec data rest → data = [] := by
  have hscan : ∀ {s₁ : Session} {todo : List ℕ}, some (scanFrom s₁ st todo) = some (s', st') →
      s₁.storage = s.storage → s'.storage = s.storage ∧
        ∀ index spec data rest, st'.point = .read index spec data rest → data = [] := by
    intro s₁ todo heq hsame
    have hbegins := scanFrom_begins s₁ st todo
    rw [Option.some.inj heq] at hbegins
    exact ⟨hbegins.1.trans hsame, hbegins.2⟩
  have hends : ∀ {st₁ : Starter}, (∀ index spec data rest, st₁.point ≠ .read index spec data rest) →
      some (s, st₁) = some (s', st') → s'.storage = s.storage ∧
        ∀ index spec data rest, st'.point = .read index spec data rest → data = [] := by
    intro st₁ hnot heq
    obtain ⟨rfl, rfl⟩ := Prod.mk.inj (Option.some.inj heq)
    exact ⟨rfl, fun index spec data rest hread => absurd hread (hnot index spec data rest)⟩
  cases b with
  | starts =>
    simp only [startStep] at hstep
    split at hstep
    · split at hstep
      · exact hends (fun _ _ _ _ hread => by cases hread) hstep
      · obtain ⟨hs, hp⟩ := checkResume_spec s st
        rw [Option.some.inj hstep] at hs hp
        refine ⟨hs.storage, fun _ _ _ _ hread => ?_⟩
        rcases hp with hp | ⟨todo, hp⟩
        · cases hp.symm.trans hread
        · cases hp.symm.trans hread
    · cases hstep
  | returns =>
    simp only [startStep] at hstep
    split at hstep
    · exact hscan hstep rfl
    · split at hstep
      · cases hstep
      · split at hstep
        · exact hscan hstep rfl
        · exact hscan hstep rfl
    · exact hends (fun _ _ _ _ hread => by cases hread) hstep
    · cases hstep
  | fails =>
    simp only [startStep] at hstep
    split at hstep
    · exact hscan hstep rfl
    · cases hstep
  | fetches =>
    rcases hb with hb | hnone
    · exact absurd rfl hb
    · simp only [startStep] at hstep
      split at hstep
      · next hp =>
        rw [readRange, hp] at hnone
        cases hnone
      · cases hstep
  | raises =>
    simp only [startStep] at hstep
    split at hstep
    · cases hstep
    · exact hends (fun _ _ _ _ hread => by cases hread) hstep

theorem raises_storage (hstep : taskStep sha1 .files .raises s t = some (s', t')) :
    s'.storage = s.storage := by
  simp only [taskStep] at hstep
  split at hstep
  · obtain ⟨rfl, -⟩ := Prod.mk.inj (Option.some.inj hstep)
    rfl
  · obtain ⟨rfl, -⟩ := Prod.mk.inj (Option.some.inj hstep)
    rfl
  · cases hstep
  · obtain ⟨rfl, -⟩ := Prod.mk.inj (Option.some.inj hstep)
    rfl

theorem peer_storage (hstep : taskStep sha1 .files b s t = some (s', t'))
    (hnot : storing (.peer t) = false) : s'.storage = s.storage := by
  rcases (turn_of_step hstep).effect with hs | ⟨index, spec, assembled, hp, -⟩
  · exact hs.storage
  · rw [storing, hp] at hnot
    cases hnot

theorem range_read {start length : ℤ} {data : Bytes} (h : readRange (.peer t) = some (start, length, data)) :
    ∃ index begin n, t.point = .read index begin n start data ∧ length = (n : ℕ) := by
  cases hp : t.point with
  | read index begin n offset data₀ =>
    rw [readRange, hp] at h
    obtain ⟨rfl, heq⟩ := Prod.mk.inj (Option.some.inj h)
    obtain ⟨rfl, rfl⟩ := Prod.mk.inj heq
    exact ⟨index, begin, n, rfl, rfl⟩
  | _ =>
    rw [readRange, hp] at h
    cases h

theorem range_scan {st : Starter} {start length : ℤ} {data : Bytes}
    (h : readRange (.starter st) = some (start, length, data)) :
    ∃ index spec todo, st.point = .read index spec data todo ∧ start = spec.offset ∧
      length = spec.length := by
  cases hp : st.point with
  | read index spec data₀ todo =>
    rw [readRange, hp] at h
    obtain ⟨rfl, heq⟩ := Prod.mk.inj (Option.some.inj h)
    obtain ⟨rfl, rfl⟩ := Prod.mk.inj heq
    exact ⟨index, spec, todo, rfl, rfl, rfl⟩
  | _ =>
    rw [readRange, hp] at h
    cases h

theorem calm_peer (hspecs : s.tracker.specs = specs) (hplain : Plain specs)
    (hnot : reading t = false ∨ (∃ hint, b = .returns hint) ∨ b = .raises)
    (hstores : ∀ s' t', taskStep sha1 .files b s t = some (s', t') → s'.storage = s.storage) :
    Calm sha1 (.peer b) s (.peer t) := by
  intro s' p' hprog
  obtain ⟨b', t', heq, rfl, hstep⟩ := program_peer hprog
  cases heq
  refine ⟨hstores s' t' hstep, fun start length data hread => ?_⟩
  obtain ⟨index, begin, n, hp', rfl⟩ := range_read hread
  obtain ⟨rfl, spec, hat, rfl⟩ := peer_reads hstep hnot hp'
  have hoffset := (hplain index spec (hspecs ▸ hat)).1
  exact ⟨rfl, by omega, by omega⟩

theorem calm_starter {st : Starter} {b : StartAction} (htiles : Tiles specs size)
    (honly : OnlyContent sha1 content specs) (hplain : Plain specs)
    (hgood : Verified sha1 content specs size s) (hproc : ProcOk sha1 content specs s (.starter st))
    (hb : b ≠ .fetches ∨ readRange (.starter st) = none) : Calm sha1 (.start b) s (.starter st) := by
  intro s' p' hprog
  obtain ⟨b', st', heq, rfl, hstep⟩ := program_starter hprog
  cases heq
  obtain ⟨hsame, hbegins⟩ := start_calm hstep hb
  refine ⟨hsame, fun start length data hread => ?_⟩
  obtain ⟨index, spec, todo, hp', rfl, rfl⟩ := range_scan hread
  have hproc' := (hgood.start htiles honly hproc hstep).2.1
  simp only [ProcOk, hp'] at hproc'
  exact ⟨hbegins index spec data todo hp', hplain index spec hproc'.1⟩

section
variable (htiles : Tiles specs size) (honly : OnlyContent sha1 content specs) (hplain : Plain specs)
include htiles honly hplain

theorem calm_idle (hgood : Verified sha1 content specs size s) (hproc : ProcOk sha1 content specs s p)
    (hread : readRange p = none) (hstore : storing p = false) : Calm sha1 a s p := by
  intro s' p' hprog
  cases p with
  | peer t =>
    obtain ⟨b, t', rfl, rfl, hstep⟩ := program_peer hprog
    refine calm_peer hgood.specs_eq hplain (Or.inl (reading_of_range hread)) ?_ s' _ hprog
    exact fun s' t' hstep => peer_storage hstep hstore
  | starter st =>
    obtain ⟨b, st', rfl, rfl, hstep⟩ := program_starter hprog
    exact calm_starter htiles honly hplain hgood hproc (Or.inr hread) s' _ hprog

theorem calm_raises (hgood : Verified sha1 content specs size s)
    (hproc : ProcOk sha1 content specs s p) : Calm sha1 (raisesTo p) s p := by
  cases p with
  | peer t =>
    exact calm_peer hgood.specs_eq hplain (Or.inr (Or.inr rfl)) fun s' t' hstep => raises_storage hstep
  | starter st => exact calm_starter htiles honly hplain hgood hproc (Or.inl (by simp))

theorem calm_cancels (hgood : Verified sha1 content specs size s)
    (hproc : ProcOk sha1 content specs s p) : Calm sha1 (cancelsTo p) s p := by
  cases p with
  | peer t =>
    exact calm_peer hgood.specs_eq hplain (Or.inr (Or.inr rfl)) fun s' t' hstep => raises_storage hstep
  | starter st => exact calm_starter htiles honly hplain hgood hproc (Or.inl (by simp))

theorem calm_read (hgood : Verified sha1 content specs size s) (hproc : ProcOk sha1 content specs s p)
    {range : ℤ × ℤ × Bytes} (hread : readRange p = some range) : Calm sha1 (returnsTo hint p) s p := by
  cases p with
  | peer t =>
    obtain ⟨index, begin, n, hp, -⟩ := range_read hread
    refine calm_peer hgood.specs_eq hplain (Or.inr (Or.inl ⟨hint, rfl⟩)) fun s' t' hstep => ?_
    apply peer_storage hstep
    rw [storing, hp]
  | starter st => exact calm_starter htiles honly hplain hgood hproc (Or.inl (by simp))

omit htiles honly in
theorem calm_write (hgood : Verified sha1 content specs size s) {index : ℕ} {spec : PieceSpec}
    {assembled : Bytes} (hp : t.point = .write index spec assembled)
    (hwritten : ∀ (k : ℕ) (byte : UInt8), assembled[k]? = some byte →
      s.storage[spec.offset.toNat + k]? = some byte) :
    Calm sha1 (returnsTo hint (.peer t)) s (.peer t) := by
  refine calm_peer hgood.specs_eq hplain (Or.inr (Or.inl ⟨hint, rfl⟩)) fun s' t' hstep => ?_
  simp only [taskStep, resume, hp] at hstep
  obtain ⟨rfl, -⟩ := Prod.mk.inj (Option.some.inj hstep)
  exact flatWrite_same hwritten

end

theorem reads_begin {start length : ℤ} (h : DiskOk sha1 content specs size st fs₀ d)
    (hread : readRange p = some (start, length, [])) (hstart : 0 ≤ start) (hlength : 0 ≤ length) :
    Reads st.slices size p (st.slicesFor start length) start length 0 := by
  obtain ⟨contents, hlaid, -, hsize⟩ := h.array
  obtain ⟨m, rfl⟩ := Int.eq_ofNat_of_zero_le hstart
  obtain ⟨n, rfl⟩ := Int.eq_ofNat_of_zero_le hlength
  exact ⟨m, n, [], hread, hstart, rfl, rfl, covers_slicesFor hlaid hsize⟩

theorem writes_begin {spec : PieceSpec} (h : DiskOk sha1 content specs size st fs₀ d)
    (hoffset : 0 ≤ spec.offset) (assembled : Bytes) :
    Writes st.slices size d.view.storage none (st.slicesFor spec.offset assembled.length) spec.offset
      assembled.length 0 spec assembled where
  place := by simp
  rest := by simp
  most := Nat.zero_le _
  covers := by
    obtain ⟨contents, hlaid, -, hsize⟩ := h.array
    obtain ⟨m, hm⟩ := Int.eq_ofNat_of_zero_le hoffset
    rw [hm]
    exact covers_slicesFor hlaid hsize
  written k hk := absurd hk (Nat.not_lt_zero k)
  thread th hth := by cases hth

theorem begins_ok (hplain : Plain specs) (h : DiskOk sha1 content specs size st fs₀ d)
    (hproc : ProcOk sha1 content specs d.view p)
    (hnew : ∀ start length data, readRange p = some (start, length, data) →
      data = [] ∧ 0 ≤ start ∧ 0 ≤ length) {lost : List Writer}
    (hlost : ∀ th ∈ lost, Right content specs st.slices th) :
    WorkerOk sha1 content specs size st d ⟨p, callOf d.storage p, none, lost⟩ := by
  have hidle : callOf d.storage p = .idle → readRange p = none → storing p = false →
      WorkerOk sha1 content specs size st d ⟨p, callOf d.storage p, none, lost⟩ := by
    intro hcall hread hstore
    rw [hcall]
    exact ⟨hproc, fun _ => ⟨hread, hstore⟩, (fun _ _ _ _ heq => by cases heq),
      (fun _ _ _ _ heq => by cases heq), fun hth => absurd rfl hth, hlost⟩
  have hreading : ∀ start length, readRange p = some (start, length, []) → 0 ≤ start → 0 ≤ length →
      callOf d.storage p = .reading (st.slicesFor start length) start length 0 →
      WorkerOk sha1 content specs size st d ⟨p, callOf d.storage p, none, lost⟩ := by
    intro start length hread hstart hlength hcall
    rw [hcall]
    refine ⟨hproc, (fun heq => by cases heq), fun left offset remaining fetched heq => ?_,
      (fun _ _ _ _ heq => by cases heq), fun hth => absurd rfl hth, hlost⟩
    obtain ⟨rfl, rfl, rfl, rfl⟩ := Call.reading.inj heq
    exact reads_begin h hread hstart hlength
  cases p with
  | peer t =>
    cases hp : t.point with
    | read index begin n offset data =>
      have hread : readRange (.peer t) = some (offset, (n : ℤ), data) := by rw [readRange, hp]
      obtain ⟨rfl, hstart, hlength⟩ := hnew offset n data hread
      apply hreading offset n hread hstart hlength
      rw [callOf, hp, h.storage]
    | write index spec assembled =>
      have hok : TaskOk sha1 specs t := hproc
      have hat := (hok.writing index spec assembled (by rw [hp]; rfl)).2.1
      have hcall : callOf d.storage (.peer t) =
          .writing (st.slicesFor spec.offset assembled.length) spec.offset 0 assembled.length := by
        rw [callOf, hp, h.storage]
      rw [hcall]
      refine ⟨hproc, (fun heq => by cases heq), (fun _ _ _ _ heq => by cases heq),
        fun left offset pos remaining heq => ?_, fun hth => absurd rfl hth, hlost⟩
      obtain ⟨rfl, rfl, rfl, rfl⟩ := Call.writing.inj heq
      exact ⟨t, index, spec, assembled, 0, rfl, hp, rfl,
        writes_begin h (hplain index spec hat).1 assembled⟩
    | _ => exact hidle (by rw [callOf, hp]) (by rw [readRange, hp]) (by rw [storing, hp])
  | starter w =>
    cases hp : w.point with
    | read index spec data todo =>
      have hread : readRange (.starter w) = some (spec.offset, spec.length, data) := by
        rw [readRange, hp]
      obtain ⟨rfl, hstart, hlength⟩ := hnew _ _ data hread
      apply hreading spec.offset spec.length hread hstart hlength
      rw [callOf, hp, h.storage]
    | _ => exact hidle (by rw [callOf, hp]) (by rw [readRange, hp]) rfl

theorem goesOn_ok (htiles : Tiles specs size) (honly : OnlyContent sha1 content specs)
    (hplain : Plain specs) (h : DiskOk sha1 content specs size st fs₀ d)
    (hproc : ProcOk sha1 content specs d.view w.proc)
    (hlost : ∀ th ∈ w.lost, Right content specs st.slices th) (hcalm : Calm sha1 a d.view w.proc)
    (hgoes : goesOn sha1 a d w = some (d', w')) :
    DiskOk sha1 content specs size st fs₀ d' ∧ WorkerOk sha1 content specs size st d' w' ∧
      KeepsRight content specs d.view d'.view := by
  obtain ⟨⟨s', p'⟩, hprog, heq⟩ := Option.map_eq_some_iff.mp hgoes
  obtain ⟨rfl, rfl⟩ := Prod.mk.inj heq
  obtain ⟨hsame, hnew⟩ := hcalm s' p' hprog
  obtain ⟨hok, hproc', hkeeps⟩ := DiskOk.engine htiles honly h hproc hprog hsame
  exact ⟨hok, begins_ok hplain hok hproc' hnew hlost, hkeeps⟩

/-- The choking manager decides during a call. -/
theorem rechokes_ok {amChoking : Bool} (htiles : Tiles specs size)
    (honly : OnlyContent sha1 content specs) (h : DiskOk sha1 content specs size st fs₀ d)
    (hw : WorkerOk sha1 content specs size st d w)
    (hstep : diskStep sha1 (.rechokes amChoking) d w = some (d', w')) :
    DiskOk sha1 content specs size st fs₀ d' ∧ WorkerOk sha1 content specs size st d' w' ∧
      KeepsRight content specs d.view d'.view := by
  obtain ⟨⟨s', p'⟩, hprog, heq⟩ := Option.map_eq_some_iff.mp hstep
  obtain ⟨rfl, rfl⟩ := Prod.mk.inj heq
  obtain ⟨t, t', hproc, rfl, htask⟩ : ∃ t t', w.proc = .peer t ∧ p' = .peer t' ∧
      taskStep sha1 .files (.rechokes amChoking) d.view t = some (s', t') := by
    cases hproc : w.proc with
    | peer t =>
      rw [hproc] at hprog
      obtain ⟨b, t', hact, rfl, htask⟩ := program_peer hprog
      obtain rfl := SessionAction.peer.inj hact
      exact ⟨t, t', rfl, rfl, htask⟩
    | starter x =>
      rw [hproc] at hprog
      obtain ⟨b, x', hact, -⟩ := program_starter hprog
      cases hact
  obtain ⟨rates, -, rfl, rfl⟩ := rechokes_cases htask
  obtain ⟨hok, hproc', hkeeps⟩ := DiskOk.engine htiles honly h hw.proc hprog rfl
  have hw' := hw.mono honly hkeeps
  refine ⟨hok, ⟨hproc', fun heq => ?_, fun left offset remaining fetched heq => ?_,
    fun left offset pos remaining heq => ?_, hw.waits, hw.lost⟩, hkeeps⟩
  · have hidle := hw.idle heq
    rw [hproc] at hidle
    exact hidle
  · obtain ⟨start, length, data, hread, hreads⟩ := hw.reading left offset remaining fetched heq
    rw [hproc] at hread
    exact ⟨start, length, data, hread, hreads⟩
  · obtain ⟨t₁, index, spec, assembled, n, hproc₁, hp, hpos, hwrites⟩ :=
      hw'.writing left offset pos remaining heq
    obtain rfl := Proc.peer.inj (hproc.symm.trans hproc₁)
    exact ⟨_, index, spec, assembled, n, rfl, hp, hpos, hwrites⟩

/-- How far a pass through a loop comes. -/
theorem span_spec {rest : List FileSlice} {offset remaining stop : ℤ}
    (h : Covers slices size stop (sl :: rest) offset) (hstop : offset + remaining = stop) :
    sl ∈ slices ∧ fileOff sl offset = offset - sl.torrentOffset ∧ sl.torrentOffset ≤ offset ∧
      span sl offset remaining ≤ remaining ∧
      fileOff sl offset + span sl offset remaining ≤ sl.length ∧
      (0 ≤ remaining → 0 ≤ span sl offset remaining) ∧
      Covers slices size stop rest (offset + span sl offset remaining) := by
  cases h with
  | cons hm hzero hfrom hto hrest =>
    have hmax : max 0 (offset - sl.torrentOffset) = offset - sl.torrentOffset := by omega
    have hnext : offset + span sl offset remaining = min stop (sl.torrentOffset + sl.length) := by
      rw [span, hmax]
      omega
    rw [hnext]
    refine ⟨hm, ?_, hfrom, ?_, ?_, fun hpos => ?_, hrest⟩
    · rw [fileOff, hmax, hzero, zero_add]
    · rw [span]
      omega
    · rw [fileOff, span, hmax, hzero]
      omega
    · rw [span, hmax]
      omega

theorem chunk_part {index pos : ℕ} {spec : PieceSpec} {assembled flat : Bytes} {thread : Option Writer}
    {rest : List FileSlice} {offset remaining : ℤ} (hat : specs[index]? = some spec)
    (hassembled : assembled = content index) (hlen : (assembled.length : ℤ) = spec.length)
    (h : Writes slices size flat thread (sl :: rest) offset remaining pos spec assembled) :
    ∃ n : ℕ, span sl offset remaining = n ∧ pos + n ≤ assembled.length ∧
      Covers slices size (spec.offset + assembled.length) rest (offset + n) ∧
      (pySlice assembled pos (pos + span sl offset remaining)).length = n ∧
      (∀ (k : ℕ) (byte : UInt8), k < n → assembled[pos + k]? = some byte →
        (pySlice assembled pos (pos + span sl offset remaining))[k]? = some byte) ∧
      Part content specs slices index spec sl pos
        ⟨sl.path, fileOff sl offset, pySlice assembled pos (pos + span sl offset remaining)⟩ := by
  have hplace := h.place
  have hrest := h.rest
  have hmost := h.most
  have hstop : offset + remaining = spec.offset + assembled.length := by omega
  obtain ⟨hm, hoff, hfrom, hle, hinside, hnonneg, hcovers⟩ := span_spec h.covers hstop
  obtain ⟨n, hn⟩ := Int.eq_ofNat_of_zero_le (hnonneg (by omega))
  have hchunk : pySlice assembled pos (pos + span sl offset remaining) = (assembled.drop pos).take n := by
    rw [hn]
    exact chunk_eq assembled pos n
  have hlength : ((assembled.drop pos).take n).length = n := by
    rw [List.length_take, List.length_drop]
    omega
  rw [hn] at hcovers
  rw [hchunk]
  refine ⟨n, hn, by omega, hcovers, hlength, fun k byte hk hbyte => ?_, ?_⟩
  · rw [List.getElem?_take_of_lt hk, List.getElem?_drop]
    exact hbyte
  · constructor
    · exact hat
    · rw [← hassembled]
      exact hlen
    · exact hm
    · rfl
    · show 0 ≤ fileOff sl offset
      omega
    · show fileOff sl offset + ((assembled.drop pos).take n).length ≤ sl.length
      rw [hlength]
      omega
    · show sl.torrentOffset + fileOff sl offset = _
      omega
    · intro k byte hk
      have hlt : k < n := by
        rw [← hlength]
        exact (List.getElem?_eq_some_iff.mp hk).1
      rw [← hassembled, ← List.getElem?_drop, ← List.getElem?_take_of_lt hlt]
      exact hk

section
variable (htiles : Tiles specs size) (honly : OnlyContent sha1 content specs) (hplain : Plain specs)
include htiles hplain

theorem store_ok {k : ℕ} {files : Files} (h : DiskOk sha1 content specs size st fs₀ d)
    (hright : Right content specs st.slices th) (hstore : storeByte d.files th k = some files) :
    DiskOk sha1 content specs size st fs₀ { d with files := files } ∧
      KeepsRight content specs d.view (Disk.view { d with files := files }) := by
  obtain ⟨index, spec, sl, start, hpart⟩ := hright
  have hnonneg := hpart.nonneg
  simp only [storeByte] at hstore
  split at hstore
  · next byte c hk hfile =>
    obtain rfl := Option.some.inj hstore
    obtain ⟨c', -, hfile', hall⟩ :=
      h.write htiles (hplain index spec hpart.listed).1 (hpart.byte hk)
    obtain rfl : c = c' := Node.file.inj (Option.some.inj (hfile.symm.trans hfile'))
    have hoffset : (th.offset + k).toNat = th.offset.toNat + k := by omega
    rw [hoffset] at hall
    obtain ⟨hok, hkeeps, -⟩ := hall d.writeLock _ rfl
    exact ⟨hok, hkeeps⟩
  · cases hstore

theorem sync_ok {index start : ℕ} {spec : PieceSpec} (h : DiskOk sha1 content specs size st fs₀ d)
    (hpart : Part content specs st.slices index spec sl start th) :
    ∃ files, syncWrite d.files th.path th.offset th.data = (.ok (), files) ∧
      ∀ lock d', d' = { d with files := files, writeLock := lock } →
        DiskOk sha1 content specs size st fs₀ d' ∧ KeepsRight content specs d.view d'.view ∧
        ∀ (k : ℕ) (byte : UInt8), th.data[k]? = some byte →
          d'.view.storage[spec.offset.toNat + (start + k)]? = some byte := by
  obtain ⟨c, hnull, hfile, hall⟩ := h.write htiles (hplain index spec hpart.listed).1 hpart
  refine ⟨_, ?_, hall⟩
  have hcast : th.offset = (th.offset.toNat : ℕ) := (Int.toNat_of_nonneg hpart.nonneg).symm
  rw [hcast]
  exact syncWrite_file hnull hfile _ _

def Stays (sha1 : Bytes → Bytes) (content : ℕ → Bytes) (specs : List PieceSpec) (size : ℕ)
    (st : DiskStorage) (fs₀ : Files) (d d' : Disk) (w' : Worker) : Prop :=
  DiskOk sha1 content specs size st fs₀ d' ∧ WorkerOk sha1 content specs size st d' w' ∧
    KeepsRight content specs d.view d'.view

omit htiles hplain in
theorem fetch_more (sha1 : Bytes → Bytes) {start length : ℤ} {data : Bytes} {byte : UInt8}
    (hread : readRange p = some (start, length, data))
    (hbyte : fetchByte s.storage start length data = some byte) :
    (∃ a, hears a = false ∧ program sha1 .files a s p = some (s, readMore byte p)) ∧
      readRange (readMore byte p) = some (start, length, data ++ [byte]) := by
  cases p with
  | peer t =>
    obtain ⟨index, begin, n, hp, rfl⟩ := range_read hread
    refine ⟨⟨.peer .fetches, rfl, ?_⟩, ?_⟩
    · simp [program, taskStep, readMore, hp, hbyte, Task.goto]
    · simp [readMore, readRange, hp]
  | starter st =>
    obtain ⟨index, spec, todo, hp, rfl, rfl⟩ := range_scan hread
    refine ⟨⟨.start .fetches, rfl, ?_⟩, ?_⟩
    · simp [program, startStep, readMore, hp, hbyte]
    · simp [readMore, readRange, hp]

omit htiles hplain in
/-- The byte that a thread reads is the next one of the range. -/
theorem fetches_from {rest : List FileSlice} {offset remaining : ℤ} {fetched : ℕ} {byte : UInt8}
    (h : DiskOk sha1 content specs size st fs₀ d) (hw : WorkerOk sha1 content specs size st d w)
    (hcall : w.call = .reading (sl :: rest) offset remaining fetched)
    (hlt : (fetched : ℤ) < span sl offset remaining)
    (hbyte : fileByte d.files sl.path (fileOff sl offset + fetched).toNat = some byte) :
    ∃ start length data, readRange w.proc = some (start, length, data) ∧
      (0 ≤ start ∧ offset + fetched = start + data.length ∧ offset + remaining = start + length ∧
        Covers st.slices size (start + length) (sl :: rest) offset) ∧
      fetchByte d.view.storage start length data = some byte := by
  obtain ⟨start, length, data, hread, hreads⟩ := hw.reading _ _ _ _ hcall
  refine ⟨start, length, data, hread, hreads, ?_⟩
  obtain ⟨hstart, hplace, hstop, hcovers⟩ := hreads
  obtain ⟨hm, hoff, hfrom, hle, hinside, -, -⟩ := span_spec hcovers hstop
  obtain ⟨contents, hlaid, hflat, -⟩ := h.array
  obtain ⟨n, hn, hfile⟩ := laid_byte hlaid hm (i := (fileOff sl offset + fetched).toNat) (by omega)
  rw [hbyte] at hfile
  rw [fetchByte, if_pos (by omega), hflat, hfile]
  congr 1
  rw [Nat.cast_zero, sub_zero] at hn
  omega

include honly

omit hplain in
theorem fetches_ok {rest : List FileSlice} {offset remaining : ℤ} {fetched : ℕ} {byte : UInt8}
    (h : DiskOk sha1 content specs size st fs₀ d) (hw : WorkerOk sha1 content specs size st d w)
    (hcall : w.call = .reading (sl :: rest) offset remaining fetched)
    (hlt : (fetched : ℤ) < span sl offset remaining)
    (hbyte : fileByte d.files sl.path (fileOff sl offset + fetched).toNat = some byte) :
    Stays sha1 content specs size st fs₀ d d { w with
      proc := readMore byte w.proc
      call := .reading (sl :: rest) offset remaining (fetched + 1) } := by
  obtain ⟨start, length, data, hread, ⟨hstart, hplace, hstop, hcovers⟩, hfetch⟩ :=
    fetches_from h hw hcall hlt hbyte
  obtain ⟨⟨a, -, hprog⟩, hmore⟩ := fetch_more sha1 hread hfetch
  obtain ⟨-, hproc, -⟩ := DiskOk.engine htiles honly h hw.proc hprog rfl
  refine ⟨h, ⟨hproc, (fun heq => by cases heq), fun left offset' remaining' fetched' heq => ?_,
    (fun _ _ _ _ heq => by cases heq), fun hth => ?_, hw.lost⟩, fun _ _ _ _ _ _ _ hb => hb⟩
  · obtain ⟨rfl, rfl, rfl, rfl⟩ := Call.reading.inj heq
    refine ⟨start, length, data ++ [byte], hmore, hstart, ?_, hstop, hcovers⟩
    rw [List.length_append, List.length_singleton]
    push_cast
    omega
  · obtain ⟨_, _, _, _, hwriting⟩ := hw.waits hth
    cases hcall.symm.trans hwriting

theorem readNext_ok {rest : List FileSlice} {offset remaining : ℤ} {fetched : ℕ}
    (h : DiskOk sha1 content specs size st fs₀ d) (hw : WorkerOk sha1 content specs size st d w)
    (hcall : w.call = .reading (sl :: rest) offset remaining fetched)
    (hdone : (fetched : ℤ) = span sl offset remaining)
    (hnext : readNext sha1 hint rest offset remaining (span sl offset remaining) d w = some (d', w')) :
    Stays sha1 content specs size st fs₀ d d' w' := by
  obtain ⟨start, length, data, hread, hstart, hplace, hstop, hcovers⟩ :=
    hw.reading _ _ _ _ hcall
  unfold readNext at hnext
  split at hnext
  · exact goesOn_ok htiles honly hplain h hw.proc hw.lost
      (calm_read htiles honly hplain h.verified hw.proc hread) hnext
  · obtain ⟨rfl, rfl⟩ := Prod.mk.inj (Option.some.inj hnext)
    obtain ⟨-, -, -, -, -, -, hrest⟩ := span_spec hcovers hstop
    refine ⟨h, ⟨hw.proc, (fun heq => by cases heq), fun left offset' remaining' fetched' heq => ?_,
      (fun _ _ _ _ heq => by cases heq), fun hth => ?_, hw.lost⟩, fun _ _ _ _ _ _ _ hb => hb⟩
    · obtain ⟨rfl, rfl, rfl, rfl⟩ := Call.reading.inj heq
      exact ⟨start, length, data, hread, hstart, by omega, by omega, hrest⟩
    · obtain ⟨_, _, _, _, hwriting⟩ := hw.waits hth
      cases hcall.symm.trans hwriting

theorem writeNext_ok {rest : List FileSlice} {offset pos remaining : ℤ} {files : Files}
    (h : DiskOk sha1 content specs size st fs₀ d) (hw : WorkerOk sha1 content specs size st d w)
    (hcall : w.call = .writing (sl :: rest) offset pos remaining) (hth : w.thread = some th)
    (hsync : syncWrite d.files th.path th.offset th.data = (.ok (), files))
    (hnext : writeNext sha1 hint rest offset pos remaining (span sl offset remaining)
      { d with files := files, writeLock := false } w = some (d', w')) :
    Stays sha1 content specs size st fs₀ d d' w' := by
  obtain ⟨t, index, spec, assembled, n, hproc, hp, rfl, hwrites⟩ := hw.writing _ _ _ _ hcall
  obtain ⟨hat, hassembled, hlen⟩ := content_of_write honly (hproc ▸ hw.proc) hp
  obtain ⟨m, hm, hmost, hcovers, hlength, hbytes, hpart⟩ := chunk_part hat hassembled hlen hwrites
  obtain ⟨sl', rest', heq, rfl⟩ := hwrites.thread th hth
  obtain ⟨rfl, rfl⟩ := List.cons.inj heq
  obtain ⟨files', hsync', hall⟩ := sync_ok htiles hplain h hpart
  obtain rfl : files = files' := (Prod.mk.inj (hsync.symm.trans hsync')).2
  obtain ⟨hok₁, hkeeps, hplaced⟩ := hall false _ rfl
  have hw₁ := hw.mono honly hkeeps
  -- what was written before, and what this thread has written
  have hwritten : ∀ k < n + m, ∀ byte, assembled[k]? = some byte →
      (Disk.view { d with files := files, writeLock := false }).storage[spec.offset.toNat + k]? =
        some byte := by
    intro k hk byte hbyte
    by_cases hold : k < n
    · have hlt := (List.getElem?_eq_some_iff.mp hbyte).1
      exact hkeeps index k spec byte hat (by omega) (hassembled ▸ hbyte) (hwrites.written k hold byte hbyte)
    · have hchunk := hbytes (k - n) byte (by omega) (by rwa [Nat.add_sub_cancel' (by omega)])
      have hput := hplaced (k - n) byte hchunk
      rwa [Nat.add_sub_cancel' (by omega)] at hput
  have hrest := hwrites.rest
  unfold writeNext at hnext
  rw [hm] at hnext
  split at hnext
  · have hcalm : Calm sha1 (returnsTo hint w.proc)
        (Disk.view { d with files := files, writeLock := false }) w.proc := by
      rw [hproc]
      refine calm_write hplain hok₁.verified hp fun k byte hbyte => ?_
      have hlt := (List.getElem?_eq_some_iff.mp hbyte).1
      exact hwritten k (by omega) byte hbyte
    obtain ⟨hok', hw', hkeeps'⟩ := goesOn_ok htiles honly hplain hok₁ hw₁.proc hw₁.lost hcalm hnext
    refine ⟨hok', hw', fun i k sp byte hi hk hbyte hold => ?_⟩
    exact hkeeps' i k sp byte hi hk hbyte (hkeeps i k sp byte hi hk hbyte hold)
  · obtain ⟨rfl, rfl⟩ := Prod.mk.inj (Option.some.inj hnext)
    refine ⟨hok₁, ⟨hw₁.proc, (fun heq => by cases heq), (fun _ _ _ _ heq => by cases heq),
      fun left offset' pos' remaining' heq => ?_, fun hno => absurd rfl hno, hw₁.lost⟩, hkeeps⟩
    obtain ⟨rfl, rfl, rfl, rfl⟩ := Call.writing.inj heq
    refine ⟨t, index, spec, assembled, n + m, hproc, hp, by push_cast; rfl, ?_⟩
    have hplace := hwrites.place
    refine ⟨?_, ?_, hmost, hcovers, hwritten, fun th hth => by cases hth⟩
    · push_cast
      omega
    · push_cast
      omega

/-- A write call that has come to the end of its slices has written everything. -/
theorem writeAll_ok {offset pos remaining : ℤ} (h : DiskOk sha1 content specs size st fs₀ d)
    (hw : WorkerOk sha1 content specs size st d w)
    (hcall : w.call = .writing [] offset pos remaining)
    (hgoes : goesOn sha1 (returnsTo hint w.proc) d w = some (d', w')) :
    Stays sha1 content specs size st fs₀ d d' w' := by
  obtain ⟨t, index, spec, assembled, n, hproc, hp, rfl, hwrites⟩ := hw.writing _ _ _ _ hcall
  obtain ⟨hat, hassembled, hlen⟩ := content_of_write honly (hproc ▸ hw.proc) hp
  have hinside := (htiles.inside index spec hat (by omega)).2
  refine goesOn_ok htiles honly hplain h hw.proc hw.lost ?_ hgoes
  rw [hproc]
  refine calm_write hplain h.verified hp fun k byte hbyte => ?_
  have hlt := (List.getElem?_eq_some_iff.mp hbyte).1
  refine hwrites.written k ?_ byte hbyte
  have hplace := hwrites.place
  cases hwrites.covers with
  | nil hend => omega

omit htiles hplain in
theorem thread_right (hw : WorkerOk sha1 content specs size st d w) (hth : w.thread = some th) :
    Right content specs st.slices th := by
  obtain ⟨left, offset, pos, remaining, hcall⟩ := hw.waits (by simp [hth])
  obtain ⟨t, index, spec, assembled, n, hproc, hp, rfl, hwrites⟩ := hw.writing _ _ _ _ hcall
  obtain ⟨hat, hassembled, hlen⟩ := content_of_write honly (hproc ▸ hw.proc) hp
  obtain ⟨sl, rest, rfl, rfl⟩ := hwrites.thread th hth
  obtain ⟨m, -, -, -, -, -, hpart⟩ := chunk_part hat hassembled hlen hwrites
  exact ⟨index, spec, sl, n, hpart⟩

theorem goesOn_after {d₁ : Disk} {w₁ : Worker} (h : DiskOk sha1 content specs size st fs₀ d₁)
    (hw : WorkerOk sha1 content specs size st d₁ w₁) (hkeeps : KeepsRight content specs d.view d₁.view)
    {lost : List Writer} (hlost : ∀ th ∈ lost, Right content specs st.slices th)
    (hcalm : Calm sha1 a d₁.view w₁.proc)
    (hgoes : goesOn sha1 a d₁ { w₁ with lost := lost } = some (d', w')) :
    Stays sha1 content specs size st fs₀ d d' w' := by
  obtain ⟨hok', hw', hkeeps'⟩ :=
    goesOn_ok (w := { w₁ with lost := lost }) htiles honly hplain h hw.proc hlost hcalm hgoes
  refine ⟨hok', hw', fun i k sp byte hi hk hbyte hold => ?_⟩
  exact hkeeps' i k sp byte hi hk hbyte (hkeeps i k sp byte hi hk hbyte hold)

theorem callEnds_ok (h : DiskOk sha1 content specs size st fs₀ d)
    (hw : WorkerOk sha1 content specs size st d w)
    (hends : callEnds sha1 hint d w = some (d', w')) : Stays sha1 content specs size st fs₀ d d' w' := by
  unfold callEnds at hends
  split at hends
  · next hcall =>
    obtain ⟨start, length, data, hread, -⟩ := hw.reading _ _ _ _ hcall
    exact goesOn_ok htiles honly hplain h hw.proc hw.lost
      (calm_read htiles honly hplain h.verified hw.proc hread) hends
  · next sl rest offset remaining fetched _ hcall =>
    simp only at hends
    split at hends
    · next hdone => exact readNext_ok htiles honly hplain h hw hcall hdone hends
    · split at hends
      · exact goesOn_ok htiles honly hplain h hw.proc hw.lost
          (calm_raises htiles honly hplain h.verified hw.proc) hends
      · cases hends
  · next hcall => exact writeAll_ok htiles honly hplain h hw hcall hends
  · next sl rest offset pos remaining th hcall hth =>
    simp only at hends
    -- the file is there, and the write goes through
    obtain ⟨index, spec, sl', start, hpart⟩ := thread_right honly hw hth
    obtain ⟨files, hsync, -⟩ := sync_ok htiles hplain h hpart
    rw [hsync] at hends
    exact writeNext_ok htiles honly hplain h hw hcall hth hsync hends
  · cases hends

theorem diskStep_ok {act : DiskAction} (h : DiskOk sha1 content specs size st fs₀ d)
    (hw : WorkerOk sha1 content specs size st d w)
    (hstep : diskStep sha1 act d w = some (d', w')) : Stays sha1 content specs size st fs₀ d d' w' := by
  have hsame : KeepsRight content specs d.view d.view := .of_same rfl
  cases act with
  | acts b =>
    simp only [diskStep] at hstep
    split at hstep
    · next hcall =>
      obtain ⟨hread, hstore⟩ := hw.idle hcall
      exact goesOn_ok htiles honly hplain h hw.proc hw.lost
        (calm_idle htiles honly hplain h.verified hw.proc hread hstore) hstep
    · cases hstep
  | rechokes amChoking => exact rechokes_ok htiles honly h hw hstep
  | locks =>
    simp only [diskStep] at hstep
    split at hstep
    · next sl rest offset pos remaining hcall hnone =>
      split at hstep
      · cases hstep
      · obtain ⟨rfl, rfl⟩ := Prod.mk.inj (Option.some.inj hstep)
        obtain ⟨t, index, spec, assembled, n, hproc, hp, rfl, hwrites⟩ := hw.writing _ _ _ _ hcall
        have hdata : dataOf w.proc = assembled := by rw [hproc, dataOf, hp]
        refine ⟨⟨h.storage, h.laid, h.distinct, h.verified, h.cwd, h.others⟩, ⟨hw.proc, hw.idle,
          hw.reading, fun left offset' pos' remaining' heq => ?_, fun _ => ⟨_, _, _, _, hcall⟩,
          hw.lost⟩, hsame⟩
        obtain ⟨rfl, rfl, rfl, rfl⟩ := Call.writing.inj (hcall.symm.trans heq)
        refine ⟨t, index, spec, assembled, n, hproc, hp, rfl, hwrites.place, hwrites.rest,
          hwrites.most, hwrites.covers, hwrites.written, fun th hth => ⟨sl, rest, rfl, ?_⟩⟩
        rw [← Option.some.inj hth, hdata]
    · cases hstep
  | fetches =>
    simp only [diskStep] at hstep
    split at hstep
    · next sl rest offset remaining fetched hcall =>
      split at hstep
      · next hlt =>
        obtain ⟨byte, hbyte, heq⟩ := Option.map_eq_some_iff.mp hstep
        obtain ⟨rfl, rfl⟩ := Prod.mk.inj heq
        exact fetches_ok htiles honly h hw hcall hlt hbyte
      · cases hstep
    · cases hstep
  | stores k =>
    simp only [diskStep] at hstep
    split at hstep
    · cases hstep
    · next th hth =>
      obtain ⟨files, hstore, heq⟩ := Option.map_eq_some_iff.mp hstep
      obtain ⟨rfl, rfl⟩ := Prod.mk.inj heq
      obtain ⟨hok, hkeeps⟩ := store_ok htiles hplain h (thread_right honly hw hth) hstore
      exact ⟨hok, hw.mono honly hkeeps, hkeeps⟩
  | ends hint => exact callEnds_ok htiles honly hplain h hw hstep
  | fails =>
    simp only [diskStep] at hstep
    split at hstep
    · exact goesOn_ok htiles honly hplain h hw.proc hw.lost
        (calm_raises htiles honly hplain h.verified hw.proc) hstep
    · have hfree : DiskOk sha1 content specs size st fs₀ { d with writeLock := false } :=
        ⟨h.storage, h.laid, h.distinct, h.verified, h.cwd, h.others⟩
      exact goesOn_after htiles honly hplain hfree (hw.mono honly hsame) hsame hw.lost
        (calm_raises htiles honly hplain h.verified hw.proc) hstep
    · cases hstep
  | cancels =>
    simp only [diskStep] at hstep
    split at hstep
    · cases hstep
    · next th hcall hth =>
      have hfree : DiskOk sha1 content specs size st fs₀ { d with writeLock := false } :=
        ⟨h.storage, h.laid, h.distinct, h.verified, h.cwd, h.others⟩
      refine goesOn_after htiles honly hplain hfree (hw.mono honly hsame) hsame
        (List.forall_mem_cons.mpr ⟨thread_right honly hw hth, hw.lost⟩)
        (calm_cancels htiles honly hplain h.verified hw.proc) hstep
    · exact goesOn_ok htiles honly hplain h hw.proc hw.lost
        (calm_cancels htiles honly hplain h.verified hw.proc) hstep
  | lostStores i k =>
    simp only [diskStep] at hstep
    split at hstep
    · cases hstep
    · next th hth =>
      obtain ⟨files, hstore, heq⟩ := Option.map_eq_some_iff.mp hstep
      obtain ⟨rfl, rfl⟩ := Prod.mk.inj heq
      obtain ⟨hok, hkeeps⟩ := store_ok htiles hplain h (hw.lost th (List.mem_of_getElem? hth)) hstore
      exact ⟨hok, hw.mono honly hkeeps, hkeeps⟩
  | lostEnds i =>
    simp only [diskStep] at hstep
    split at hstep
    · cases hstep
    · next th hth =>
      obtain ⟨rfl, rfl⟩ := Prod.mk.inj (Option.some.inj hstep)
      obtain ⟨index, spec, sl, start, hpart⟩ := hw.lost th (List.mem_of_getElem? hth)
      obtain ⟨files, hsync, hall⟩ := sync_ok htiles hplain h hpart
      rw [hsync]
      obtain ⟨hok, hkeeps, -⟩ := hall d.writeLock _ rfl
      exact ⟨hok, (hw.mono honly hkeeps).forget i, hkeeps⟩
  | lostFails i =>
    simp only [diskStep] at hstep
    obtain ⟨rfl, rfl⟩ := Prod.mk.inj (Option.some.inj hstep)
    exact ⟨h, hw.forget i, hsame⟩

end

end DiskSteps
