import Aiobt.FileSystem
import Aiobt.InterleavedProcesses
import Aiobt.PieceTracker
import Aiobt.ResumeFiles

/-! # Saves of the resume file

`_save_resume` for every verified piece, with `_sync_write` in the threads of the executor. All
calls share one temporary name. What each call has seen of the tracker is recorded beside the
session. -/
namespace ResumeSaves

open ByteStrings FileSystem InterleavedProcesses PieceTracker PyDecimal ResumeFiles

structure Snapshot where
  got : Finset ℕ
  downloaded : ℤ
  uploaded : ℤ
  deriving DecidableEq

structure Saves where
  tracker : Tracker
  uploaded : ℤ
  snapshots : List Snapshot
  /-- Every file that came into being; two names of the state directory point to some of them. -/
  files : List Bytes
  tmp : Option ℕ
  saved : Option ℕ

inductive Save where
  | starting (idx : ℕ)
  /-- No thread has taken up its job yet. -/
  | queued (seq : ℕ) (payload : Bytes)
  /-- The job has opened the temporary file and has written so many bytes. -/
  | writing (seq : ℕ) (payload : Bytes) (file written : ℕ)
  | ended (seq : ℕ)
  /-- An `OSError` or a cancellation has ended it, or the payload could not be made. -/
  | failed (seq : ℕ)
  deriving DecidableEq

inductive Proc where
  | save (point : Save)
  | session
  deriving DecidableEq

inductive Action where
  | verifies (idx : ℕ)
  | uploads (n : ℕ)
  | starts
  | opens
  | writes (n : ℕ)
  | renames
  | fails

def downloadedBytes (t : Tracker) : ℤ :=
  ∑ i ∈ t.got, ((t.specs[i]?).map PieceSpec.length).getD 0

def Saves.snapshot (s : Saves) : Snapshot := ⟨s.tracker.got, downloadedBytes s.tracker, s.uploaded⟩

def payloadOf (maxDigits : ℕ) (infoHash : Bytes) (s : Saves) (snap : Snapshot) :
    Except SaveError Bytes :=
  resumePayload maxDigits infoHash snap.got s.tracker.pieceCount snap.downloaded snap.uploaded

def startSave (maxDigits : ℕ) (infoHash : Bytes) (s : Saves) : Saves × Save :=
  let seq := s.snapshots.length
  let s' := { s with snapshots := s.snapshots ++ [s.snapshot] }
  match payloadOf maxDigits infoHash s s.snapshot with
  | .error _ => (s', .failed seq)
  | .ok payload => (s', .queued seq payload)

def openTmp (s : Saves) (seq : ℕ) (payload : Bytes) : Saves × Save :=
  match s.tmp with
  | none =>
    ({ s with files := s.files ++ [[]], tmp := some s.files.length },
      .writing seq payload s.files.length 0)
  | some file => ({ s with files := s.files.set file [] }, .writing seq payload file 0)

def writeChunk (s : Saves) (file offset : ℕ) (data : Bytes) : Saves :=
  { s with files := s.files.modify file fun content => writeAt content offset data }

/-- `os.replace`. Where the temporary name is gone, its `FileNotFoundError` is suppressed. -/
def replaceSaved (s : Saves) : Saves :=
  match s.tmp with
  | none => s
  | some file => { s with tmp := none, saved := some file }

def saveStep (maxDigits : ℕ) (infoHash : Bytes) : Action → Saves → Save → Option (Saves × Save)
  | .starts, s, .starting _ => some (startSave maxDigits infoHash s)
  | .opens, s, .queued seq payload => some (openTmp s seq payload)
  | .writes n, s, .writing seq payload file written =>
    if payload.length < written + n then none
    else some (writeChunk s file written ((payload.drop written).take n),
      .writing seq payload file (written + n))
  | .renames, s, .writing seq payload _ written =>
    if written < payload.length then none else some (replaceSaved s, .ended seq)
  | .fails, s, .queued seq _ => some (s, .failed seq)
  | .fails, s, .writing seq _ _ _ => some (s, .failed seq)
  | _, _, _ => none

def sessionStep : Action → Saves → Option Saves
  | .verifies idx, s =>
    if s.tracker.pieceCount ≤ idx then none else some { s with tracker := s.tracker.markHave idx }
  | .uploads n, s => some { s with uploaded := s.uploaded + n }
  | _, _ => none

def program (maxDigits : ℕ) (infoHash : Bytes) : Program Saves Proc Action
  | a, s, .save point => (saveStep maxDigits infoHash a s point).map fun next => (next.1, .save next.2)
  | a, s, .session => (sessionStep a s).map fun next => (next, .session)

def initial (t : Tracker) (uploaded : ℤ) (leftover found : Option Bytes) : Config Saves Proc where
  shared :=
    { tracker := t
      uploaded := uploaded
      snapshots := []
      files := [leftover.getD [], found.getD []]
      tmp := leftover.map fun _ => 0
      saved := found.map fun _ => 1 }
  procs := [.session]

def Saves.resumeFile (s : Saves) : Option Bytes := s.saved.bind fun file => s.files[file]?

def Proc.isWriting : Proc → Bool
  | .save (.writing ..) => true
  | _ => false

def Proc.hasOpened (seq : ℕ) : Proc → Bool
  | .save (.writing seq' ..) => seq' == seq
  | .save (.ended seq') => seq' == seq
  | _ => false

/-- No thread uses the temporary file; and the save is that of the newest snapshot, or that one
still has to open the file. -/
def MayOpen (c : Config Saves Proc) (i : ℕ) : Prop :=
  (∀ p ∈ c.procs, p.isWriting = false) ∧
    match c.procs[i]? with
    | some (.save (.queued seq _)) =>
      seq + 1 = c.shared.snapshots.length ∨
        ∀ p ∈ c.procs, p.hasOpened (c.shared.snapshots.length - 1) = false
    | _ => True

instance (c : Config Saves Proc) (i : ℕ) : Decidable (MayOpen c i) := by
  unfold MayOpen
  split <;> infer_instance

def Called (s : Saves) : Proc → Prop
  | .save (.starting idx) => idx ∈ s.tracker.got
  | .save _ => False
  | .session => True

instance (s : Saves) : (p : Proc) → Decidable (Called s p)
  | .save (.starting _) => inferInstanceAs (Decidable (_ ∈ _))
  | .save (.queued ..) => inferInstanceAs (Decidable False)
  | .save (.writing ..) => inferInstanceAs (Decidable False)
  | .save (.ended _) => inferInstanceAs (Decidable False)
  | .save (.failed _) => inferInstanceAs (Decidable False)
  | .session => inferInstanceAs (Decidable True)

def Orderly (maxDigits : ℕ) (c : Config Saves Proc) : Move Proc Action → Prop
  | .spawn p => Called c.shared p
  | .act _ .starts =>
    WithinLimit maxDigits (digitCount (downloadedBytes c.shared.tracker)) ∧
      WithinLimit maxDigits (digitCount c.shared.uploaded)
  | .act i .opens => MayOpen c i
  | .act _ _ => True

instance (maxDigits : ℕ) (c : Config Saves Proc) :
    (m : Move Proc Action) → Decidable (Orderly maxDigits c m)
  | .spawn p => inferInstanceAs (Decidable (Called c.shared p))
  | .act _ a => by cases a <;> unfold Orderly <;> infer_instance

inductive Turn (maxDigits : ℕ) (infoHash : Bytes) (a : Action) (s : Saves) (p : Save) (s' : Saves)
    (p' : Save) : Prop
  | starts {idx} : a = .starts → p = .starting idx → startSave maxDigits infoHash s = (s', p') →
      Turn maxDigits infoHash a s p s' p'
  | opens {seq payload} : a = .opens → p = .queued seq payload → openTmp s seq payload = (s', p') →
      Turn maxDigits infoHash a s p s' p'
  | writes {seq payload file written} (n : ℕ) : p = .writing seq payload file written →
      written + n ≤ payload.length →
      s' = writeChunk s file written ((payload.drop written).take n) →
      p' = .writing seq payload file (written + n) → Turn maxDigits infoHash a s p s' p'
  | renames {seq payload file written} : p = .writing seq payload file written →
      payload.length ≤ written → s' = replaceSaved s → p' = .ended seq →
      Turn maxDigits infoHash a s p s' p'
  | fails {seq} : s' = s → p' = .failed seq →
      ((∃ payload, p = .queued seq payload) ∨
        ∃ payload file written, p = .writing seq payload file written) →
      Turn maxDigits infoHash a s p s' p'

variable {maxDigits : ℕ} {infoHash : Bytes} {c : Config Saves Proc}

theorem turn_of_step {a : Action} {s s' : Saves} {p p' : Save}
    (h : saveStep maxDigits infoHash a s p = some (s', p')) :
    Turn maxDigits infoHash a s p s' p' := by
  unfold saveStep at h
  split at h
  · exact .starts rfl rfl (Option.some.inj h)
  · exact .opens rfl rfl (Option.some.inj h)
  · next n seq payload file written =>
    split at h
    · cases h
    · next hfits =>
      obtain ⟨rfl, rfl⟩ := Prod.mk.inj (Option.some.inj h)
      exact .writes n rfl (by omega) rfl rfl
  · next seq payload file written =>
    split at h
    · cases h
    · next hall =>
      obtain ⟨rfl, rfl⟩ := Prod.mk.inj (Option.some.inj h)
      exact .renames rfl (by omega) rfl rfl
  · next seq payload =>
    obtain ⟨rfl, rfl⟩ := Prod.mk.inj (Option.some.inj h)
    exact .fails rfl rfl (Or.inl ⟨payload, rfl⟩)
  · next seq payload file written =>
    obtain ⟨rfl, rfl⟩ := Prod.mk.inj (Option.some.inj h)
    exact .fails rfl rfl (Or.inr ⟨payload, file, written, rfl⟩)
  · cases h

theorem program_cases {a : Action} {s s' : Saves} {p p' : Proc}
    (h : program maxDigits infoHash a s p = some (s', p')) :
    (∃ point point', p = .save point ∧ p' = .save point' ∧
        Turn maxDigits infoHash a s point s' point') ∨
      p = .session ∧ p' = .session ∧ sessionStep a s = some s' := by
  cases p with
  | save point =>
    obtain ⟨⟨s₁, point₁⟩, hstep, heq⟩ := Option.map_eq_some_iff.mp h
    obtain ⟨rfl, rfl⟩ := Prod.mk.inj heq
    exact Or.inl ⟨point, point₁, rfl, rfl, turn_of_step hstep⟩
  | session =>
    obtain ⟨s₁, hstep, heq⟩ := Option.map_eq_some_iff.mp h
    obtain ⟨rfl, rfl⟩ := Prod.mk.inj heq
    exact Or.inr ⟨rfl, rfl, hstep⟩

/-- The session adds verified pieces and counts what it serves. -/
theorem sessionStep_cases {a : Action} {s s' : Saves} (h : sessionStep a s = some s') :
    (∃ idx : ℕ, (idx : ℤ) < s.tracker.pieceCount ∧
        s' = { s with tracker := s.tracker.markHave idx }) ∨
      ∃ n : ℕ, s' = { s with uploaded := s.uploaded + n } := by
  unfold sessionStep at h
  split at h
  · next idx =>
    split at h
    · cases h
    · next hidx => exact Or.inl ⟨idx, by omega, (Option.some.inj h).symm⟩
  · next n => exact Or.inr ⟨n, (Option.some.inj h).symm⟩
  · cases h

theorem startSave_cases {s s' : Saves} {p' : Save}
    (h : startSave maxDigits infoHash s = (s', p')) :
    s' = { s with snapshots := s.snapshots ++ [s.snapshot] } ∧
      ((∃ payload, payloadOf maxDigits infoHash s s.snapshot = .ok payload ∧
          p' = .queued s.snapshots.length payload) ∨
        (∃ e, payloadOf maxDigits infoHash s s.snapshot = .error e) ∧
          p' = .failed s.snapshots.length) := by
  unfold startSave at h
  split at h
  · next e he =>
    obtain ⟨rfl, rfl⟩ := Prod.mk.inj h
    exact ⟨rfl, Or.inr ⟨⟨e, he⟩, rfl⟩⟩
  · next payload hok =>
    obtain ⟨rfl, rfl⟩ := Prod.mk.inj h
    exact ⟨rfl, Or.inl ⟨payload, hok, rfl⟩⟩

/-- The temporary name leads to an empty file, and no other file changes. -/
theorem openTmp_cases {s s' : Saves} {seq : ℕ} {payload : Bytes} {p' : Save}
    (h : openTmp s seq payload = (s', p')) (hinside : ∀ file, s.tmp = some file → file < s.files.length) :
    ∃ file, p' = .writing seq payload file 0 ∧ s'.tmp = some file ∧ s'.files[file]? = some [] ∧
      (s.tmp = some file ∨ file = s.files.length) ∧
      (∀ other, other ≠ file → s'.files[other]? = s.files[other]?) ∧
      s.files.length ≤ s'.files.length ∧ s'.tracker = s.tracker ∧ s'.snapshots = s.snapshots ∧
      s'.saved = s.saved := by
  unfold openTmp at h
  split at h
  · obtain ⟨rfl, rfl⟩ := Prod.mk.inj h
    refine ⟨s.files.length, rfl, rfl, List.getElem?_concat_length .., Or.inr rfl, ?_, by simp, rfl,
      rfl, rfl⟩
    intro other hother
    by_cases hlt : other < s.files.length
    · exact List.getElem?_append_left hlt
    · rw [List.getElem?_eq_none (by simp; omega), List.getElem?_eq_none (by omega)]
  · next file htmp =>
    obtain ⟨rfl, rfl⟩ := Prod.mk.inj h
    refine ⟨file, rfl, htmp, ?_, Or.inl htmp, ?_, by simp, rfl, rfl, rfl⟩
    · exact List.getElem?_set_self (hinside file htmp)
    · intro other hother
      exact List.getElem?_set_ne (Ne.symm hother)

theorem Turn.isWriting {a : Action} {s s' : Saves} {p p' : Save}
    (h : Turn maxDigits infoHash a s p s' p') (hwriting : (Proc.save p').isWriting = true) :
    a = .opens ∨ (Proc.save p).isWriting = true := by
  cases h with
  | starts _ _ hstart =>
    rcases (startSave_cases hstart).2 with ⟨_, _, rfl⟩ | ⟨_, rfl⟩ <;> cases hwriting
  | opens ha _ _ => exact Or.inl ha
  | writes n hp _ _ _ =>
    rw [hp]
    exact Or.inr rfl
  | renames _ _ _ hp' =>
    rw [hp'] at hwriting
    cases hwriting
  | fails _ hp' _ =>
    rw [hp'] at hwriting
    cases hwriting

theorem orderly_alone {start : Config Saves Proc} (hstart : ∀ p ∈ start.procs, p.isWriting = false)
    (h : Reach (program maxDigits infoHash) (Orderly maxDigits) start c) :
    Exclusive Proc.isWriting c := by
  refine h.exclusive hstart ?_ ?_
  · intro c p hcalled
    rcases p with (_ | _ | _ | _ | _) | _
    · rfl
    all_goals first | rfl | cases hcalled
  · intro c i a p s p' hok hp hs hwriting
    rcases program_cases hs with ⟨point, point', rfl, rfl, hturn⟩ | ⟨-, rfl, -⟩
    · rcases hturn.isWriting hwriting with rfl | hw
      · exact Or.inr hok.1
      · exact Or.inl hw
    · cases hwriting

@[simp] theorem openTmp_tracker (s : Saves) (seq : ℕ) (payload : Bytes) :
    (openTmp s seq payload).1.tracker = s.tracker := by
  unfold openTmp
  split <;> rfl

@[simp] theorem replaceSaved_tracker (s : Saves) : (replaceSaved s).tracker = s.tracker := by
  unfold replaceSaved
  split <;> rfl

theorem Turn.tracker {a : Action} {s s' : Saves} {p p' : Save}
    (h : Turn maxDigits infoHash a s p s' p') : s'.tracker = s.tracker := by
  cases h with
  | starts _ _ hstart => rw [(startSave_cases hstart).1]
  | opens _ _ hopen => rw [← openTmp_tracker s, hopen]
  | writes _ _ _ hs' _ =>
    rw [hs']
    rfl
  | renames _ _ hs' _ => rw [hs', replaceSaved_tracker]
  | fails hs' _ _ => rw [hs']

theorem pieceCount_stays {start : Config Saves Proc}
    (h : Reach (program maxDigits infoHash) (Orderly maxDigits) start c) :
    c.shared.tracker.pieceCount = start.shared.tracker.pieceCount := by
  refine h.invariant
    (I := fun c => c.shared.tracker.pieceCount = start.shared.tracker.pieceCount) rfl
    ?_ ?_
  · intro c p ih _
    exact ih
  intro c i a p s p' ih _ _ hs
  rcases program_cases hs with ⟨point, point', rfl, rfl, hturn⟩ | ⟨-, -, hsession⟩
  · rw [hturn.tracker]
    exact ih
  · rcases sessionStep_cases hsession with ⟨idx, -, rfl⟩ | ⟨n, rfl⟩
    · exact ih
    · exact ih

def Save.seq? : Save → Option ℕ
  | .starting _ => none
  | .queued seq _ => some seq
  | .writing seq _ _ _ => some seq
  | .ended seq => some seq
  | .failed seq => some seq

def Save.isOver : Save → Bool
  | .ended _ => true
  | .failed _ => true
  | _ => false

def Covered (c : Config Saves Proc) : Prop :=
  ∀ k < c.shared.snapshots.length, ∃ point, .save point ∈ c.procs ∧ point.seq? = some k

theorem Turn.seq {a : Action} {s s' : Saves} {p p' : Save}
    (h : Turn maxDigits infoHash a s p s' p') :
    (s'.snapshots.length = s.snapshots.length ∧ p'.seq? = p.seq?) ∨
      (s'.snapshots.length = s.snapshots.length + 1 ∧ p.seq? = none ∧
        p'.seq? = some s.snapshots.length) := by
  cases h with
  | starts _ hp hstart =>
    obtain ⟨rfl, hp'⟩ := startSave_cases hstart
    refine Or.inr ⟨List.length_append, by rw [hp]; rfl, ?_⟩
    rcases hp' with ⟨_, _, rfl⟩ | ⟨_, rfl⟩ <;> rfl
  | opens _ hp hopen =>
    rw [hp]
    unfold openTmp at hopen
    split at hopen
    all_goals
      obtain ⟨rfl, rfl⟩ := Prod.mk.inj hopen
      exact Or.inl ⟨rfl, rfl⟩
  | writes n hp _ hs' hp' =>
    rw [hs', hp', hp]
    exact Or.inl ⟨rfl, rfl⟩
  | renames hp _ hs' hp' =>
    rw [hs', hp', hp]
    refine Or.inl ⟨?_, rfl⟩
    unfold replaceSaved
    split <;> rfl
  | fails hs' hp' hp =>
    rw [hs', hp']
    rcases hp with ⟨_, rfl⟩ | ⟨_, _, _, rfl⟩ <;> exact Or.inl ⟨rfl, rfl⟩

theorem covered {ok : Config Saves Proc → Move Proc Action → Prop} {start : Config Saves Proc}
    (hstart : start.shared.snapshots = [])
    (h : Reach (program maxDigits infoHash) ok start c) : Covered c := by
  refine h.invariant (I := Covered) ?_ ?_ ?_
  · intro k hk
    rw [hstart] at hk
    cases hk
  · intro c p ih _ k hk
    obtain ⟨point, hmem, hseq⟩ := ih k hk
    exact ⟨point, List.mem_append_left _ hmem, hseq⟩
  · intro c i a p s p' ih _ hp hs k hk
    have hself : p' ∈ c.procs.set i p' := by
      have hlt : i < c.procs.length := (List.getElem?_eq_some_iff.mp hp).1
      exact List.mem_of_getElem? (List.getElem?_set_self hlt)
    have hold : k < c.shared.snapshots.length → ∃ point, (Proc.save point = p ∨
        .save point ∈ c.procs.set i p') ∧ point.seq? = some k := by
      intro hk
      obtain ⟨point, hmem, hseq⟩ := ih k hk
      obtain ⟨j, hj⟩ := List.mem_iff_getElem?.mp hmem
      by_cases hji : i = j
      · subst hji
        exact ⟨point, Or.inl (Option.some.inj (hj.symm.trans hp)), hseq⟩
      · rw [← List.getElem?_set_ne (a := p') hji] at hj
        exact ⟨point, Or.inr (List.mem_of_getElem? hj), hseq⟩
    rcases program_cases hs with ⟨point, point', rfl, rfl, hturn⟩ | ⟨rfl, rfl, hsession⟩
    · rcases hturn.seq with ⟨hsame, hkeep⟩ | ⟨hmore, hnone, hnew⟩
      · obtain ⟨q, hq, hseq⟩ := hold (hsame ▸ hk)
        rcases hq with heq | hmem
        · obtain rfl := Proc.save.inj heq
          exact ⟨point', hself, hkeep.trans hseq⟩
        · exact ⟨q, hmem, hseq⟩
      · by_cases hlast : k = c.shared.snapshots.length
        · exact ⟨point', hself, hlast ▸ hnew⟩
        · have hk' : k < s.snapshots.length := hk
          obtain ⟨q, hq, hseq⟩ := hold (by omega)
          rcases hq with heq | hmem
          · obtain rfl := Proc.save.inj heq
            cases hnone.symm.trans hseq
          · exact ⟨q, hmem, hseq⟩
    · have hsame : s.snapshots = c.shared.snapshots := by
        rcases sessionStep_cases hsession with ⟨idx, -, rfl⟩ | ⟨n, rfl⟩ <;> rfl
      obtain ⟨q, hq, hseq⟩ := hold (hsame ▸ hk)
      rcases hq with heq | hmem
      · cases heq
      · exact ⟨q, hmem, hseq⟩

end ResumeSaves
