import Aiobt.ResumeSaves

/-! # What the resume file holds

In every state of a run whose jobs take turns, and when all of its saves are over. -/
namespace SavedSnapshots

open ByteStrings FileSystem InterleavedProcesses PieceTracker PyDecimal ResumeFiles ResumeSaves

variable {maxDigits : ℕ} {infoHash : Bytes} {c : Config Saves Proc}

def Records (maxDigits : ℕ) (infoHash : Bytes) (s : Saves) (seq : ℕ) (payload : Bytes) : Prop :=
  ∃ snap, s.snapshots[seq]? = some snap ∧ payloadOf maxDigits infoHash s snap = .ok payload

theorem Records.lt {maxDigits : ℕ} {infoHash : Bytes} {s : Saves} {seq : ℕ} {payload : Bytes}
    (h : Records maxDigits infoHash s seq payload) : seq < s.snapshots.length := by
  obtain ⟨snap, hsnap, -⟩ := h
  exact (List.getElem?_eq_some_iff.mp hsnap).1

def Latest (maxDigits : ℕ) (infoHash : Bytes) (s : Saves) : Prop :=
  ∃ file, s.resumeFile = some file ∧ Records maxDigits infoHash s (s.snapshots.length - 1) file

def Valid (maxDigits : ℕ) (infoHash : Bytes) (s : Saves) : Proc → Prop
  | .save (.starting idx) => idx ∈ s.tracker.got
  | .save (.queued seq payload) => Records maxDigits infoHash s seq payload
  | .save (.writing seq payload file written) =>
    Records maxDigits infoHash s seq payload ∧ s.tmp = some file ∧
      s.files[file]? = some (payload.take written) ∧ written ≤ payload.length
  | .save (.ended seq) =>
    seq < s.snapshots.length ∧
      (seq + 1 = s.snapshots.length → Latest maxDigits infoHash s)
  | .save (.failed seq) => seq < s.snapshots.length
  | .session => True

structure Apart (s : Saves) : Prop where
  tmp : ∀ file, s.tmp = some file → file < s.files.length ∧ s.saved ≠ some file
  saved : ∀ file, s.saved = some file → file < s.files.length

structure Tidy (maxDigits : ℕ) (infoHash : Bytes) (found : Option Bytes) (c : Config Saves Proc) :
    Prop where
  within : ∀ i ∈ c.shared.tracker.got, (i : ℤ) < c.shared.tracker.pieceCount
  apart : Apart c.shared
  content : ∀ file, c.shared.resumeFile = some file → found = some file ∨
    ∃ seq, Records maxDigits infoHash c.shared seq file
  valid : ∀ p ∈ c.procs, Valid maxDigits infoHash c.shared p
  newest : ∀ seq payload file written, .save (.writing seq payload file written) ∈ c.procs →
    seq + 1 ≠ c.shared.snapshots.length →
    .save (.ended (c.shared.snapshots.length - 1)) ∉ c.procs

theorem payload_made (hlim : maxDigits = 0 ∨ 640 ≤ maxDigits) (hhash : infoHash.length = 20)
    {s : Saves} (hcount : 1 ≤ s.tracker.pieceCount)
    (hsize : (s.tracker.pieceCount + 7).fdiv 8 < 2 ^ 63)
    (hwithin : ∀ i ∈ s.tracker.got, (i : ℤ) < s.tracker.pieceCount)
    (hdownloaded : WithinLimit maxDigits (digitCount (downloadedBytes s.tracker)))
    (huploaded : WithinLimit maxDigits (digitCount s.uploaded)) :
    ∃ payload, payloadOf maxDigits infoHash s s.snapshot = .ok payload := by
  have hshort : infoHash.length < 2 ^ 63 := by
    rw [hhash]
    decide
  obtain ⟨payload, hpayload, -⟩ :=
    payload_loaded hlim le_rfl hshort hcount hsize hwithin hdownloaded huploaded
  exact ⟨payload, hpayload⟩

structure Remembers (s s' : Saves) : Prop where
  pieceCount : s'.tracker.pieceCount = s.tracker.pieceCount
  got : s.tracker.got ⊆ s'.tracker.got
  snapshots : s.snapshots <+: s'.snapshots

theorem Remembers.records {s s' : Saves} (h : Remembers s s') {seq : ℕ} {payload : Bytes}
    (hrec : Records maxDigits infoHash s seq payload) :
    Records maxDigits infoHash s' seq payload := by
  obtain ⟨snap, hsnap, hpayload⟩ := hrec
  refine ⟨snap, ?_, ?_⟩
  · obtain ⟨rest, hrest⟩ := h.snapshots
    rw [← hrest, List.getElem?_append_left (List.getElem?_eq_some_iff.mp hsnap).1]
    exact hsnap
  · rw [payloadOf, h.pieceCount]
    exact hpayload

/-- A process that does not write depends on the files only through the resume file. -/
theorem Valid.stable {s s' : Saves} (h : Remembers s s') {p : Proc}
    (hp : Valid maxDigits infoHash s p)
    (hwriting : p.isWriting = true → s'.tmp = s.tmp ∧ s'.files = s.files)
    (hended : ∀ seq, p = .save (.ended seq) → seq + 1 = s.snapshots.length →
      s'.snapshots = s.snapshots → Latest maxDigits infoHash s → Latest maxDigits infoHash s') :
    Valid maxDigits infoHash s' p := by
  have hlength := h.snapshots.length_le
  rcases p with (idx | ⟨seq, payload⟩ | ⟨seq, payload, file, written⟩ | seq | seq) | _
  · exact h.got hp
  · exact h.records hp
  · obtain ⟨htmp, hfiles⟩ := hwriting rfl
    obtain ⟨hrec, hname, hcontent, hle⟩ := hp
    exact ⟨h.records hrec, htmp.trans hname, hfiles ▸ hcontent, hle⟩
  · obtain ⟨hlt, hnewest⟩ := hp
    refine ⟨by omega, fun hlast => ?_⟩
    have hsame : s'.snapshots = s.snapshots := (h.snapshots.eq_of_length (by omega)).symm
    exact hended seq rfl (by omega) hsame (hnewest (by omega))
  · exact lt_of_lt_of_le hp hlength
  · trivial

theorem Latest.mono {s s' : Saves} (h : Latest maxDigits infoHash s) (hmono : Remembers s s')
    (hsame : s'.snapshots = s.snapshots) (hfile : s'.resumeFile = s.resumeFile) :
    Latest maxDigits infoHash s' := by
  obtain ⟨file, hcontent, hrec⟩ := h
  refine ⟨file, hfile.trans hcontent, ?_⟩
  rw [hsame]
  exact hmono.records hrec

variable {found : Option Bytes}

theorem Tidy.frame (h : Tidy maxDigits infoHash found c) {i : ℕ} {s : Saves} {p' : Proc}
    (hmono : Remembers c.shared s) (hfiles : s.files = c.shared.files) (htmp : s.tmp = c.shared.tmp)
    (hsaved : s.saved = c.shared.saved)
    (hwithin : ∀ i ∈ s.tracker.got, (i : ℤ) < s.tracker.pieceCount)
    (hvalid : Valid maxDigits infoHash s p') (hnot : p'.isWriting = false)
    (hended : ∀ seq, p' ≠ .save (.ended seq)) :
    Tidy maxDigits infoHash found ⟨s, c.procs.set i p'⟩ where
  within := hwithin
  apart := by
    constructor
    · intro file hfile
      rw [hfiles, hsaved]
      exact h.apart.tmp file (htmp ▸ hfile)
    · intro file hfile
      rw [hfiles]
      exact h.apart.saved file (hsaved ▸ hfile)
  content := by
    intro file hfile
    rw [Saves.resumeFile, hsaved, hfiles] at hfile
    rcases h.content file hfile with hfound | ⟨seq, hrec⟩
    · exact Or.inl hfound
    · exact Or.inr ⟨seq, hmono.records hrec⟩
  valid := by
    refine forall_mem_set (fun q hq => ?_) hvalid
    apply (h.valid q hq).stable hmono (fun _ => ⟨htmp, hfiles⟩)
    intro _ _ _ hsame hlatest
    exact hlatest.mono hmono hsame (by rw [Saves.resumeFile, hsaved, hfiles]; rfl)
  newest := by
    intro seq payload file written hwriting hold hend
    have hlength := hmono.snapshots.length_le
    have hwriting' : .save (.writing seq payload file written) ∈ c.procs := by
      rcases mem_set_cases hwriting with heq | hmem
      · rw [← heq] at hnot
        cases hnot
      · exact hmem
    have hend' : .save (.ended (s.snapshots.length - 1)) ∈ c.procs := by
      rcases mem_set_cases hend with heq | hmem
      · exact (hended _ heq.symm).elim
      · exact hmem
    have hlt : s.snapshots.length - 1 < c.shared.snapshots.length := (h.valid _ hend').1
    have hsame : s.snapshots.length = c.shared.snapshots.length := by omega
    rw [hsame] at hold hend'
    exact h.newest seq payload file written hwriting' hold hend'

theorem Saves.resumeFile_congr {s s' : Saves} (hsaved : s'.saved = s.saved)
    (hcontent : ∀ file, s.saved = some file → s'.files[file]? = s.files[file]?) :
    s'.resumeFile = s.resumeFile := by
  rw [Saves.resumeFile, Saves.resumeFile, hsaved]
  cases hfile : s.saved with
  | none => rfl
  | some file => exact hcontent file hfile

/-- A step of the only writer, which leaves the resume file alone. -/
theorem Tidy.scratch (h : Tidy maxDigits infoHash found c) {i : ℕ} {s : Saves}
    {seq file written : ℕ} {payload : Bytes}
    (hmono : Remembers c.shared s) (hgot : s.tracker = c.shared.tracker)
    (hsnapshots : s.snapshots = c.shared.snapshots)
    (hfile : s.resumeFile = c.shared.resumeFile) (hapart : Apart s)
    (hvalid : Valid maxDigits infoHash s (.save (.writing seq payload file written)))
    (hothers : ∀ j q, j ≠ i → c.procs[j]? = some q → q.isWriting = false)
    (hnewest : seq + 1 ≠ c.shared.snapshots.length →
      .save (.ended (c.shared.snapshots.length - 1)) ∉ c.procs) :
    Tidy maxDigits infoHash found ⟨s, c.procs.set i (.save (.writing seq payload file written))⟩ where
  within := by
    rw [hgot]
    exact h.within
  apart := hapart
  content := by
    intro content hcontent
    rcases h.content content (hfile ▸ hcontent) with hfound | ⟨seq, hrec⟩
    · exact Or.inl hfound
    · exact Or.inr ⟨seq, hmono.records hrec⟩
  valid := by
    intro q hq
    obtain ⟨j, hj⟩ := List.mem_iff_getElem?.mp hq
    rcases getElem?_set_cases hj with ⟨-, rfl⟩ | ⟨hji, hj'⟩
    · exact hvalid
    · refine (h.valid q (List.mem_of_getElem? hj')).stable hmono (fun hwriting => ?_)
        fun _ _ _ hsame hlatest => hlatest.mono hmono hsame hfile
      rw [hothers j q hji hj'] at hwriting
      cases hwriting
  newest := by
    intro seq' payload' file' written' hwriting hold hend
    have hend' : .save (.ended (s.snapshots.length - 1)) ∈ c.procs := by
      rcases mem_set_cases hend with heq | hmem
      · cases heq
      · exact hmem
    rw [hsnapshots] at hold hend'
    obtain ⟨j, hj⟩ := List.mem_iff_getElem?.mp hwriting
    rcases getElem?_set_cases hj with ⟨-, heq⟩ | ⟨hji, hj'⟩
    · cases heq
      exact hnewest hold hend'
    · cases hothers j _ hji hj'

theorem Remembers.of_same {s s' : Saves} (htracker : s'.tracker = s.tracker)
    (hsnapshots : s'.snapshots = s.snapshots) : Remembers s s' :=
  ⟨by rw [htracker], by rw [htracker], by rw [hsnapshots]⟩

theorem Tidy.opens (h : Tidy maxDigits infoHash found c) {i seq : ℕ} {payload : Bytes} {s : Saves}
    {p' : Save} (hp : c.procs[i]? = some (.save (.queued seq payload))) (hmay : MayOpen c i)
    (hopen : openTmp c.shared seq payload = (s, p')) :
    Tidy maxDigits infoHash found ⟨s, c.procs.set i (.save p')⟩ := by
  obtain ⟨file, rfl, htmp, hempty, hwhich, hothers, hgrows, htracker, hsnapshots, hsaved⟩ :=
    openTmp_cases hopen fun file hfile => (h.apart.tmp file hfile).1
  have hmono : Remembers c.shared s := .of_same htracker hsnapshots
  have hne : ∀ other, c.shared.saved = some other → other ≠ file := by
    rintro other hother rfl
    rcases hwhich with hname | rfl
    · exact (h.apart.tmp other hname).2 hother
    · exact absurd (h.apart.saved _ hother) (lt_irrefl _)
  have hresume : s.resumeFile = c.shared.resumeFile :=
    Saves.resumeFile_congr hsaved fun other hother => hothers other (hne other hother)
  have hapart : Apart s := by
    constructor
    · intro other hother
      obtain rfl : file = other := Option.some.inj (htmp.symm.trans hother)
      refine ⟨(List.getElem?_eq_some_iff.mp hempty).1, fun hsame => ?_⟩
      exact hne file (hsaved ▸ hsame) rfl
    · intro other hother
      exact lt_of_lt_of_le (h.apart.saved other (hsaved ▸ hother)) hgrows
  have hrec : Records maxDigits infoHash c.shared seq payload := h.valid _ (List.mem_of_getElem? hp)
  refine h.scratch hmono htracker hsnapshots hresume hapart
    ⟨hmono.records hrec, htmp, by rw [hempty, List.take_zero], Nat.zero_le _⟩
    (fun j q _ hj => hmay.1 q (List.mem_of_getElem? hj)) fun hold hend => ?_
  have hlast := hmay.2
  rw [hp] at hlast
  rcases hlast with hlast | hnone
  · exact hold hlast
  · have hopened := hnone _ hend
    simp [Proc.hasOpened] at hopened

theorem Tidy.writes (h : Tidy maxDigits infoHash found c) {i seq file written n : ℕ} {payload : Bytes}
    (halone : Exclusive Proc.isWriting c)
    (hp : c.procs[i]? = some (.save (.writing seq payload file written)))
    (hle : written + n ≤ payload.length) :
    Tidy maxDigits infoHash found
      ⟨writeChunk c.shared file written ((payload.drop written).take n),
        c.procs.set i (.save (.writing seq payload file (written + n)))⟩ := by
  obtain ⟨hrec, hname, hcontent, -⟩ := h.valid _ (List.mem_of_getElem? hp)
  have hmono : Remembers c.shared
      (writeChunk c.shared file written ((payload.drop written).take n)) := .of_same rfl rfl
  have hresume : (writeChunk c.shared file written ((payload.drop written).take n)).resumeFile =
      c.shared.resumeFile := by
    apply Saves.resumeFile_congr
    · rfl
    intro other hother
    refine List.getElem?_modify_ne _ _ ?_
    rintro rfl
    exact (h.apart.tmp file hname).2 hother
  have hapart : Apart (writeChunk c.shared file written ((payload.drop written).take n)) := by
    have hlength : (writeChunk c.shared file written ((payload.drop written).take n)).files.length =
        c.shared.files.length := List.length_modify ..
    constructor
    · intro other hother
      rw [hlength]
      exact h.apart.tmp other hother
    · intro other hother
      rw [hlength]
      exact h.apart.saved other hother
  refine h.scratch hmono rfl rfl hresume hapart ⟨hmono.records hrec, hname, ?_, hle⟩ ?_ ?_
  · rw [writeChunk, List.getElem?_modify_eq, hcontent, ← writeAt_take hle]
    rfl
  · exact halone.others hp rfl
  · exact h.newest seq payload file written (List.mem_of_getElem? hp)

theorem Tidy.renames (h : Tidy maxDigits infoHash found c) {i seq file written : ℕ} {payload : Bytes}
    (halone : Exclusive Proc.isWriting c)
    (hp : c.procs[i]? = some (.save (.writing seq payload file written)))
    (hall : payload.length ≤ written) :
    Tidy maxDigits infoHash found
      ⟨replaceSaved c.shared, c.procs.set i (.save (.ended seq))⟩ := by
  obtain ⟨hrec, hname, hcontent, -⟩ := h.valid _ (List.mem_of_getElem? hp)
  have hreplaced : replaceSaved c.shared = { c.shared with tmp := none, saved := some file } := by
    rw [replaceSaved, hname]
  rw [List.take_of_length_le hall] at hcontent
  rw [hreplaced]
  have hmono : Remembers c.shared { c.shared with tmp := none, saved := some file } :=
    .of_same rfl rfl
  have hothers := halone.others hp rfl
  have hlatest : seq + 1 = c.shared.snapshots.length →
      Latest maxDigits infoHash { c.shared with tmp := none, saved := some file } := by
    intro hlast
    refine ⟨payload, hcontent, hmono.records ?_⟩
    rw [← hlast]
    exact hrec
  exact {
    within := h.within
    apart := by
      constructor
      · intro other hother
        cases hother
      · intro other hother
        obtain rfl := Option.some.inj hother
        exact (h.apart.tmp file hname).1
    content := by
      intro content hfile
      obtain rfl : payload = content := Option.some.inj (hcontent.symm.trans hfile)
      exact Or.inr ⟨seq, hmono.records hrec⟩
    valid := by
      intro q hq
      obtain ⟨j, hj⟩ := List.mem_iff_getElem?.mp hq
      rcases getElem?_set_cases hj with ⟨-, rfl⟩ | ⟨hji, hj'⟩
      · exact ⟨hrec.lt, hlatest⟩
      · have hmem := List.mem_of_getElem? hj'
        refine (h.valid q hmem).stable hmono (fun hwriting => ?_) fun seq' hq' hlast _ _ => ?_
        · rw [hothers j q hji hj'] at hwriting
          cases hwriting
        · -- The newest save has ended before, so that this one is the newest.
          by_cases hnew : seq + 1 = c.shared.snapshots.length
          · exact hlatest hnew
          · obtain rfl : seq' = c.shared.snapshots.length - 1 := by omega
            rw [hq'] at hmem
            exact (h.newest seq payload file written (List.mem_of_getElem? hp) hnew hmem).elim
    newest := by
      intro seq' payload' file' written' hwriting
      obtain ⟨j, hj⟩ := List.mem_iff_getElem?.mp hwriting
      rcases getElem?_set_cases hj with ⟨-, heq⟩ | ⟨hji, hj'⟩
      · cases heq
      · cases hothers j _ hji hj' }

theorem initial_alone {t : Tracker} {uploaded : ℤ} {leftover found : Option Bytes}
    (h : Reach (program maxDigits infoHash) (Orderly maxDigits) (initial t uploaded leftover found) c) :
    Exclusive Proc.isWriting c := by
  refine orderly_alone (fun p hp => ?_) h
  rw [List.mem_singleton.mp hp]
  rfl

theorem initial_apart (t : Tracker) (uploaded : ℤ) (leftover found : Option Bytes) :
    Apart (initial t uploaded leftover found).shared := by
  constructor
  · intro file hfile
    obtain ⟨_, -, rfl⟩ := Option.map_eq_some_iff.mp hfile
    refine ⟨Nat.zero_lt_succ _, fun hsaved => ?_⟩
    obtain ⟨_, -, hone⟩ := Option.map_eq_some_iff.mp hsaved
    cases hone
  · intro file hfile
    obtain ⟨_, -, rfl⟩ := Option.map_eq_some_iff.mp hfile
    exact Nat.lt_succ_self 1

theorem initial_resumeFile (t : Tracker) (uploaded : ℤ) (leftover found : Option Bytes) :
    (initial t uploaded leftover found).shared.resumeFile = found := by
  cases found <;> rfl

theorem Tidy.starts (h : Tidy maxDigits infoHash found c) {i idx : ℕ} {s : Saves} {p' : Save}
    (hlim : maxDigits = 0 ∨ 640 ≤ maxDigits) (hhash : infoHash.length = 20)
    (hsize : (c.shared.tracker.pieceCount + 7).fdiv 8 < 2 ^ 63)
    (hp : c.procs[i]? = some (.save (.starting idx)))
    (hdigits : WithinLimit maxDigits (digitCount (downloadedBytes c.shared.tracker)) ∧
      WithinLimit maxDigits (digitCount c.shared.uploaded))
    (hstart : startSave maxDigits infoHash c.shared = (s, p')) :
    Tidy maxDigits infoHash found ⟨s, c.procs.set i (.save p')⟩ ∧
      p' ≠ .failed c.shared.snapshots.length := by
  have hidx : idx ∈ c.shared.tracker.got := h.valid _ (List.mem_of_getElem? hp)
  have hcount : 1 ≤ c.shared.tracker.pieceCount := by
    have := h.within idx hidx
    omega
  obtain ⟨payload, hmade⟩ := payload_made hlim hhash hcount hsize h.within hdigits.1 hdigits.2
  obtain ⟨rfl, ⟨payload', hpayload, rfl⟩ | ⟨⟨e, he⟩, -⟩⟩ := startSave_cases hstart
  · have hmono : Remembers c.shared
        { c.shared with snapshots := c.shared.snapshots ++ [c.shared.snapshot] } :=
      ⟨rfl, Finset.Subset.refl _, List.prefix_append ..⟩
    refine ⟨h.frame hmono rfl rfl rfl h.within ?_ rfl nofun, nofun⟩
    exact ⟨c.shared.snapshot, List.getElem?_concat_length .., hpayload⟩
  · cases hmade.symm.trans he

theorem Tidy.spawn (h : Tidy maxDigits infoHash found c) {p : Proc} (hcalled : Called c.shared p) :
    Tidy maxDigits infoHash found { c with procs := c.procs ++ [p] } := by
  have hfresh : Valid maxDigits infoHash c.shared p ∧ p.isWriting = false ∧
      ∀ seq, p ≠ .save (.ended seq) := by
    rcases p with (_ | _ | _ | _ | _) | _
    · exact ⟨hcalled, rfl, nofun⟩
    all_goals first | exact ⟨trivial, rfl, nofun⟩ | cases hcalled
  refine ⟨h.within, h.apart, h.content, ?_, ?_⟩
  · exact forall_mem_concat h.valid hfresh.1
  · intro seq payload file written hwriting hold hend
    have hwriting' : .save (.writing seq payload file written) ∈ c.procs := by
      rcases List.mem_append.mp hwriting with hmem | hmem
      · exact hmem
      · rw [← List.mem_singleton.mp hmem] at hfresh
        cases hfresh.2.1
    refine h.newest seq payload file written hwriting' hold ?_
    rcases List.mem_append.mp hend with hmem | hmem
    · exact hmem
    · exact (hfresh.2.2 _ (List.mem_singleton.mp hmem).symm).elim

theorem initial_tidy {t : Tracker} (hgot : t.got = ∅) (uploaded : ℤ) (leftover found : Option Bytes) :
    Tidy maxDigits infoHash found (initial t uploaded leftover found) where
  within := by
    intro i hi
    have hempty : (initial t uploaded leftover found).shared.tracker.got = ∅ := hgot
    rw [hempty] at hi
    exact absurd hi (Finset.notMem_empty i)
  apart := initial_apart ..
  content := fun file hfile => Or.inl ((initial_resumeFile t uploaded leftover found).symm.trans hfile)
  valid := by
    intro p hp
    rw [List.mem_singleton.mp hp]
    trivial
  newest := by
    intro seq payload file written hwriting
    cases List.mem_singleton.mp hwriting

theorem Tidy.fails (h : Tidy maxDigits infoHash found c) {i seq : ℕ} {point : Save}
    (hp : c.procs[i]? = some (.save point))
    (hpoint : (∃ payload, point = .queued seq payload) ∨
      ∃ payload file written, point = .writing seq payload file written) :
    Tidy maxDigits infoHash found ⟨c.shared, c.procs.set i (.save (.failed seq))⟩ := by
  refine h.frame (.of_same rfl rfl) rfl rfl rfl h.within ?_ rfl nofun
  have hvalid := h.valid _ (List.mem_of_getElem? hp)
  rcases hpoint with ⟨payload, rfl⟩ | ⟨payload, file, written, rfl⟩
  · exact hvalid.lt
  · exact hvalid.1.lt

theorem Tidy.session (h : Tidy maxDigits infoHash found c) {i : ℕ} {a : Action} {s : Saves}
    (hstep : sessionStep a c.shared = some s) :
    Tidy maxDigits infoHash found ⟨s, c.procs.set i .session⟩ := by
  rcases sessionStep_cases hstep with ⟨idx, hidx, rfl⟩ | ⟨n, rfl⟩
  · have hmono : Remembers c.shared { c.shared with tracker := c.shared.tracker.markHave idx } :=
      ⟨rfl, Finset.subset_insert .., List.prefix_rfl⟩
    refine h.frame hmono rfl rfl rfl (fun j hj => ?_) trivial rfl nofun
    rcases Finset.mem_insert.mp hj with rfl | hj
    · exact hidx
    · exact h.within j hj
  · exact h.frame (.of_same rfl rfl) rfl rfl rfl h.within trivial rfl nofun

theorem orderly_tidy {t : Tracker} {uploaded : ℤ} {leftover : Option Bytes}
    (hlim : maxDigits = 0 ∨ 640 ≤ maxDigits) (hhash : infoHash.length = 20) (hgot : t.got = ∅)
    (hsize : (t.pieceCount + 7).fdiv 8 < 2 ^ 63)
    (h : Reach (program maxDigits infoHash) (Orderly maxDigits) (initial t uploaded leftover found) c) :
    Tidy maxDigits infoHash found c := by
  induction h with
  | refl => exact initial_tidy hgot ..
  | @next c c' m hreach hok happ ih =>
    cases m with
    | spawn p =>
      rw [apply_spawn happ]
      exact ih.spawn hok
    | act i a =>
      obtain ⟨p, s, p', hp, hs, rfl⟩ := apply_act happ
      have halone := initial_alone hreach
      rcases program_cases hs with ⟨point, point', rfl, rfl, hturn⟩ | ⟨rfl, rfl, hsession⟩
      · cases hturn with
        | starts ha hpoint hstart =>
          subst ha hpoint
          have hcount : c.shared.tracker.pieceCount = t.pieceCount := pieceCount_stays hreach
          exact (ih.starts hlim hhash (hcount ▸ hsize) hp hok hstart).1
        | opens ha hpoint hopen =>
          subst ha hpoint
          exact ih.opens hp hok hopen
        | writes n hpoint hle hs' hpoint' =>
          subst hpoint hs' hpoint'
          exact ih.writes halone hp hle
        | renames hpoint hall hs' hpoint' =>
          subst hpoint hs' hpoint'
          exact ih.renames halone hp hall
        | fails hs' hpoint' hpoint =>
          subst hs' hpoint'
          exact ih.fails hp hpoint
      · exact ih.session hsession

/-- Where each job has the temporary file for itself, and no older save opens it after the newest,
the resume file always encodes what some save has seen of the tracker, and in the end what the
newest save has seen. -/
theorem saves_kept (hlim : maxDigits = 0 ∨ 640 ≤ maxDigits) (hhash : infoHash.length = 20)
    {t : Tracker} (hgot : t.got = ∅) (hsize : (t.pieceCount + 7).fdiv 8 < 2 ^ 63) (uploaded : ℤ)
    (leftover found : Option Bytes) (c : Config Saves Proc)
    (h : Reach (program maxDigits infoHash) (Orderly maxDigits)
      (initial t uploaded leftover found) c) :
    (∀ file, c.shared.resumeFile = some file → found = some file ∨
        ∃ snap ∈ c.shared.snapshots, payloadOf maxDigits infoHash c.shared snap = .ok file) ∧
      ((∀ point, .save point ∈ c.procs → point.isOver = true) → c.shared.snapshots ≠ [] →
        .save (.failed (c.shared.snapshots.length - 1)) ∉ c.procs →
        Latest maxDigits infoHash c.shared) := by
  have htidy := orderly_tidy hlim hhash hgot hsize h
  constructor
  · intro file hfile
    rcases htidy.content file hfile with hfound | ⟨seq, snap, hsnap, hpayload⟩
    · exact Or.inl hfound
    · exact Or.inr ⟨snap, List.mem_of_getElem? hsnap, hpayload⟩
  · intro hover hsome hok
    have hpos : 0 < c.shared.snapshots.length := List.length_pos_iff.mpr hsome
    obtain ⟨point, hmem, hseq⟩ := covered rfl h (c.shared.snapshots.length - 1) (by omega)
    have hdone := hover point hmem
    cases point with
    | ended seq =>
      obtain rfl := Option.some.inj hseq
      exact (htidy.valid _ hmem).2 (by omega)
    | failed seq =>
      obtain rfl := Option.some.inj hseq
      exact (hok hmem).elim
    | _ => cases hdone

def job (i : ℕ) (payload : Bytes) : List (Move Proc Action) :=
  [.act i .opens, .act i (.writes payload.length), .act i .renames]

theorem run_job (i seq : ℕ) (payload : Bytes)
    (hp : c.procs[i]? = some (.save (.queued seq payload)))
    (htmp : c.shared.tmp = none) :
    run (program maxDigits infoHash) c (job i payload) =
      some ⟨{ c.shared with files := c.shared.files ++ [payload], saved := some c.shared.files.length },
        c.procs.set i (.save (.ended seq))⟩ := by
  have hi : i < c.procs.length := (List.getElem?_eq_some_iff.mp hp).1
  have hwritten : writeAt [] 0 (payload.take payload.length) = payload := by
    have hwhole : writeAt (payload.take 0) 0 ((payload.drop 0).take payload.length) =
        payload.take (0 + payload.length) := writeAt_take (by simp)
    simpa using hwhole
  have hopen : apply (program maxDigits infoHash) c (.act i .opens) =
      some ⟨{ c.shared with files := c.shared.files ++ [[]], tmp := some c.shared.files.length },
        c.procs.set i (.save (.writing seq payload c.shared.files.length 0))⟩ := by
    simp only [apply, hp]
    simp only [program, saveStep, openTmp, htmp, Option.map_some]
  rw [job, run, hopen]
  simp [run, apply, hi, program, saveStep, writeChunk, replaceSaved, List.modify_eq_set, htmp]
  simpa using hwritten

def twoPieces : Tracker where
  pieceCount := 2
  specs := [⟨0, 0, 1, List.replicate 20 0⟩, ⟨1, 1, 1, List.replicate 20 0⟩]
  got := ∅
  pending := ∅
  failed := ∅
  availability := fun _ => none

def oneVerified : Saves := ⟨twoPieces.markHave 0, 0, [], [[], []], none, none⟩
def twoVerified : Saves :=
  ⟨(twoPieces.markHave 0).markHave 1, 0, [⟨{0}, 1, 0⟩], [[], []], none, none⟩

def twoQueued (first second : Bytes) : Config Saves Proc :=
  ⟨{ twoVerified with snapshots := [⟨{0}, 1, 0⟩, ⟨{1, 0}, 2, 0⟩] },
    [.session, .save (.queued 0 first), .save (.queued 1 second)]⟩

theorem apply_starts (c : Config Saves Proc) (i idx : ℕ) {payload : Bytes}
    (hp : c.procs[i]? = some (.save (.starting idx)))
    (hpayload : payloadOf maxDigits infoHash c.shared c.shared.snapshot = .ok payload) :
    apply (program maxDigits infoHash) c (.act i .starts) =
      some ⟨{ c.shared with snapshots := c.shared.snapshots ++ [c.shared.snapshot] },
        c.procs.set i (.save (.queued c.shared.snapshots.length payload))⟩ := by
  simp only [apply, hp]
  simp only [program, saveStep, startSave, hpayload, Option.map_some]

theorem reach_twoQueued {first second : Bytes}
    (hfirst : resumePayload 4300 infoHash {0} 2 1 0 = .ok first)
    (hsecond : resumePayload 4300 infoHash {1, 0} 2 2 0 = .ok second) :
    Reach (program 4300 infoHash) (Orderly 4300) (initial twoPieces 0 none none)
      (twoQueued first second) := by
  have hone : oneVerified.snapshot = ⟨{0}, 1, 0⟩ := by decide
  have htwo : twoVerified.snapshot = ⟨{1, 0}, 2, 0⟩ := by decide
  have hpayload₁ : payloadOf 4300 infoHash oneVerified oneVerified.snapshot = .ok first := by
    rw [hone]
    exact hfirst
  have hpayload₂ : payloadOf 4300 infoHash twoVerified twoVerified.snapshot = .ok second := by
    rw [htwo]
    exact hsecond
  have hstart₁ := apply_starts ⟨oneVerified, [.session, .save (.starting 0)]⟩ 1 0 rfl hpayload₁
  have hstart₂ := apply_starts
    ⟨twoVerified, [.session, .save (.queued 0 first), .save (.starting 1)]⟩ 2 1 rfl hpayload₂
  rw [hone] at hstart₁
  rw [htwo] at hstart₂
  have hverified : Reach (program 4300 infoHash) (Orderly 4300) (initial twoPieces 0 none none)
      ⟨oneVerified, [.session]⟩ := .next (.act 0 (.verifies 0)) .refl trivial rfl
  have hcalled : Reach (program 4300 infoHash) (Orderly 4300) (initial twoPieces 0 none none)
      ⟨oneVerified, [.session, .save (.starting 0)]⟩ :=
    .next (.spawn (.save (.starting 0))) hverified (by decide) rfl
  have hdigits : WithinLimit 4300 (digitCount (downloadedBytes oneVerified.tracker)) ∧
      WithinLimit 4300 (digitCount oneVerified.uploaded) := by decide
  have hdigits' : WithinLimit 4300 (digitCount (downloadedBytes twoVerified.tracker)) ∧
      WithinLimit 4300 (digitCount twoVerified.uploaded) := by decide
  have hmem : 1 ∈ twoVerified.tracker.got := by decide
  have hqueued := Reach.next (.act 1 Action.starts) hcalled hdigits hstart₁
  have hboth : Reach (program 4300 infoHash) (Orderly 4300) (initial twoPieces 0 none none)
      ⟨twoVerified, [.session, .save (.queued 0 first)]⟩ :=
    .next (.act 0 (.verifies 1)) hqueued trivial rfl
  have hcalled' : Reach (program 4300 infoHash) (Orderly 4300) (initial twoPieces 0 none none)
      ⟨twoVerified, [.session, .save (.queued 0 first), .save (.starting 1)]⟩ :=
    .next (.spawn (.save (.starting 1))) hboth hmem rfl
  exact .next (.act 2 Action.starts) hcalled' hdigits' hstart₂

theorem two_payloads : ∃ first second,
    resumePayload 4300 (List.replicate 20 7) {0} 2 1 0 = .ok first ∧
      resumePayload 4300 (List.replicate 20 7) {1, 0} 2 2 0 = .ok second ∧ first ≠ second := by
  have hsaved : ∀ got : Finset ℕ, (∀ i ∈ got, (i : ℤ) < 2) → ∀ downloaded : ℤ,
      WithinLimit 4300 (digitCount downloaded) →
      ∃ payload, resumePayload 4300 (List.replicate 20 7) got 2 downloaded 0 = .ok payload ∧
        ∀ other, loadResume 4300 2 (some payload) other =
          .ok (if List.replicate 20 7 ≠ other then none else some ⟨other, got, downloaded, 0⟩) :=
    fun got hgot downloaded hdownloaded => payload_loaded (Or.inr (by decide)) le_rfl (by decide)
      (by decide) (by decide) hgot hdownloaded (by decide)
  obtain ⟨first, hfirst, hload₁⟩ := hsaved {0} (by decide) 1 (by decide)
  obtain ⟨second, hsecond, hload₂⟩ := hsaved {1, 0} (by decide) 2 (by decide)
  refine ⟨first, second, hfirst, hsecond, ?_⟩
  rintro rfl
  have hsame := (hload₁ (List.replicate 20 7)).symm.trans (hload₂ (List.replicate 20 7))
  simp at hsame

theorem allowed_job (i : ℕ) (payload : Bytes) (hmay : MayOpen c i) :
    Allowed (program maxDigits infoHash) (Orderly maxDigits) c (job i payload) :=
  ⟨hmay, fun _ _ => ⟨trivial, fun _ _ => ⟨trivial, fun _ _ => trivial⟩⟩⟩

theorem saves_kept_in_turn : ∃ c,
    Reach (program 4300 (List.replicate 20 7)) (Orderly 4300) (initial twoPieces 0 none none) c ∧
      c.procs = [.session, .save (.ended 0), .save (.ended 1)] ∧
      Latest 4300 (List.replicate 20 7) c.shared := by
  obtain ⟨first, second, hfirst, hsecond, -⟩ := two_payloads
  have hqueued := reach_twoQueued hfirst hsecond
  have hfree : MayOpen (twoQueued first second) 1 := by
    refine ⟨?_, Or.inr ?_⟩ <;> simp [twoQueued, Proc.isWriting, Proc.hasOpened]
  have hone := hqueued.append_run (allowed_job 1 first hfree) (run_job 1 0 first rfl rfl)
  have htwo := hone.append_run (allowed_job 2 second ⟨?_, Or.inl rfl⟩)
    (run_job 2 1 second rfl rfl)
  · refine ⟨_, htwo, rfl, ?_⟩
    refine (saves_kept (Or.inr (by decide)) (by decide) rfl (by decide) 0 none none _ htwo).2 ?_ ?_ ?_
    · simp [twoQueued, Save.isOver]
    · simp [twoQueued]
    · simp [twoQueued]
  · simp [twoQueued, Proc.isWriting]

def Calls (c : Config Saves Proc) : Move Proc Action → Prop
  | .spawn p => Called c.shared p
  | .act _ _ => True

/-- The newer save is done when the thread of the older one begins. -/
theorem stale_save : ∃ c,
    Reach (program 4300 (List.replicate 20 7)) Calls (initial twoPieces 0 none none) c ∧
      c.procs = [.session, .save (.ended 0), .save (.ended 1)] ∧
      c.shared.snapshots = [⟨{0}, 1, 0⟩, ⟨{1, 0}, 2, 0⟩] ∧
      ¬ Latest 4300 (List.replicate 20 7) c.shared := by
  obtain ⟨first, second, hfirst, hsecond, hne⟩ := two_payloads
  have horderly : ∀ c m, Orderly 4300 c m → Calls c m := by
    intro c m hok
    cases m with
    | spawn p => exact hok
    | act i a => trivial
  have hqueued := (reach_twoQueued hfirst hsecond).mono horderly
  have hcalls : ∀ c i payload, Allowed (program 4300 (List.replicate 20 7)) Calls c (job i payload) :=
    fun _ _ _ => ⟨trivial, fun _ _ => ⟨trivial, fun _ _ => ⟨trivial, fun _ _ => trivial⟩⟩⟩
  have hnew := hqueued.append_run (hcalls ..) (run_job 2 1 second rfl rfl)
  have hold := hnew.append_run (hcalls ..) (run_job 1 0 first rfl rfl)
  refine ⟨_, hold, rfl, rfl, ?_⟩
  rintro ⟨file, hfile, snap, hsnap, hpayload⟩
  obtain rfl : first = file := Option.some.inj hfile
  obtain rfl : (⟨{1, 0}, 2, 0⟩ : Snapshot) = snap := Option.some.inj hsnap
  exact hne (Except.ok.inj (hpayload.symm.trans hsecond))

end SavedSnapshots
