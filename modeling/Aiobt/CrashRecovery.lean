import Aiobt.CheckSteps
import Aiobt.DiskSessions

/-! # Sessions that are killed

A session may be killed at any moment, with threads in the middle of their files. What the next
session finds in the files. -/
namespace CrashRecovery

open ByteStrings FileSystem PieceTracker PieceEngine SessionTasks InterleavedProcesses
open TorrentStorage SliceLoops StorageRefinement FlatStore VerifiedPieces ResumeCheck CheckSteps
open DiskCalls DiskContents DiskSteps DiskSessions

variable {sha1 : Bytes → Bytes} {content : ℕ → Bytes} {specs : List PieceSpec} {size : ℕ}
  {contents : List Bytes} {st : DiskStorage} {fs₀ : Files} {d : Disk} {e : Surroundings}

theorem fetch_of_stored {i : ℕ} {spec : PieceSpec} (hplain : Plain specs)
    (h : Stored sha1 content specs d.view i) (hat : specs[i]? = some spec) :
    flatFetch d.view.storage spec.offset spec.length = content i := by
  obtain ⟨spec', hat', -, hread⟩ := h.flatRead_eq
  obtain rfl := Option.some.inj (hat.symm.trans hat')
  rw [flatFetch, if_pos (hplain i spec hat).1]
  exact hread

theorem good_of_had {tr : Tracker} {i : ℕ} (hplain : Plain tr.specs)
    (h : DiskOk sha1 content tr.specs size st fs₀ d) (hhad : i ∈ d.session.tracker.got)
    (hstored : e.stored = flatFetch d.view.storage) (hraises : e.raises i = none) :
    Good sha1 e tr i := by
  have hold := h.verified.stored i hhad
  obtain ⟨spec, hat, hverify, hlength, -⟩ := hold
  have hfetch := fetch_of_stored hplain (h.verified.stored i hhad) hat
  refine ⟨hraises, spec, hat, ?_, ?_⟩
  · rw [hstored, hfetch]
    exact hlength
  · rw [hstored, hfetch]
    exact beq_iff_eq.mp hverify

theorem read_of_good {tr : Tracker} {i : ℕ} (htiles : Tiles tr.specs size) (hplain : Plain tr.specs)
    (honly : OnlyContent sha1 content tr.specs) (h : DiskOk sha1 content tr.specs size st fs₀ d)
    (hstored : e.stored = flatFetch d.view.storage) (hgood : Good sha1 e tr i) :
    ∃ spec, tr.specs[i]? = some spec ∧
      st.read d.files spec.offset spec.length = .ok (content i) := by
  obtain ⟨-, spec, hat, -, hhash⟩ := hgood
  refine ⟨spec, hat, ?_⟩
  rw [hstored] at hhash
  obtain ⟨hcontent, -⟩ := honly i spec hat _ (beq_iff_eq.mpr hhash)
  rw [flatFetch, if_pos (hplain i spec hat).1] at hcontent
  rw [read_piece htiles hplain h hat, hcontent]

/-- Whenever a session is killed, whatever its threads have done by then: the next start comes to the
end of its check, finds every piece that was had (if the resume file claims it or claims none, and
its read does not fail), and marks no piece that `read` does not give as it should be. -/
theorem had_pieces_survive {pieceLength totalLength : ℤ} {raw : Bytes} {tr : Tracker}
    {fs : Files} {c : Config Disk Worker} {w : Starter} (h1 : 1 ≤ pieceLength) (h0 : 0 ≤ totalLength)
    (htr : PieceTracker.init pieceLength totalLength raw = some tr)
    (honly : OnlyContent sha1 content tr.specs) (hlaid : Laid fs 0 st.slices contents)
    (hsize : contents.flatten.length = totalLength.toNat) (hdistinct : (locations fs st.slices).Nodup)
    (hreach : Reach (diskStep sha1) Beginning ⟨⟨newSession tr [], st, fs, false⟩, []⟩ c)
    (hstored : e.stored = flatFetch (diskContent st c.shared.files)) (hpoint : w.point = .starting)
    (hclaimed : e.claimed = .ok (w.haveFromResume, w.uploadedFromResume)) :
    (∃ s w', Checks sha1 e (newSession tr (diskContent st c.shared.files)) w s w' ∧
      w'.point = .emitStarted) ∧
    ∀ s w', Checks sha1 e (newSession tr (diskContent st c.shared.files)) w s w' →
      w'.point = .emitStarted →
      (∀ i ∈ c.shared.session.tracker.got, Candidate e tr i → e.raises i = none → i ∈ s.tracker.got) ∧
        ∀ i ∈ s.tracker.got, ∃ spec, tr.specs[i]? = some spec ∧
          st.read c.shared.files spec.offset spec.length = .ok (content i) := by
  have htiles := init_tiles htr
  have hplain := plain_of_init h1 h0 htr
  have hok := diskOk_of_reach h1 h0 htr honly hlaid hsize hdistinct hreach
  have hview : e.stored = flatFetch c.shared.view.storage := by
    rw [hstored, Disk.view, hok.storage]
  refine ⟨(start_checks htr hstored hpoint hclaimed).1, fun s w' hchecks hend => ?_⟩
  obtain ⟨hgot, -⟩ := start_finds_valid htr hstored hpoint hclaimed hchecks hend
  refine ⟨fun i hi hcandidate hraises => ?_, fun i hi => ?_⟩
  · exact (hgot i).mpr ⟨hcandidate, good_of_had hplain hok hi hview hraises⟩
  · exact read_of_good htiles hplain honly hok hview ((hgot i).mp hi).2

/-- All that a check finds around it, without a resume file. -/
def alone (files : Files) : Surroundings where
  maxDigits := 4300
  depth := 1000
  infoHash := List.replicate 20 0
  resume := none
  stored := flatFetch (diskContent halves files)
  raises _ := none

theorem had_pieces_survive_overtaken :
    ∃ tr c s w, PieceTracker.init 20 20 (List.replicate 20 7) = some tr ∧
      run (diskStep id) ⟨⟨newSession tr [], halves, emptyHalves, false⟩, []⟩
        (overtakes (List.replicate 20 7)) = some c ∧
      Checks id (alone c.shared.files) (newSession tr (diskContent halves c.shared.files))
        ⟨∅, 0, .starting⟩ s w ∧ w.point = .emitStarted ∧ 0 ∈ s.tracker.got := by
  obtain ⟨tr, htr⟩ : ∃ tr, PieceTracker.init 20 20 (List.replicate 20 7) = some tr := ⟨_, rfl⟩
  have hone : tr.specs = [⟨0, 0, 20, List.replicate 20 7⟩] ∧ tr.pieceCount = 1 := by
    obtain rfl := Option.some.inj htr
    decide
  obtain ⟨c, hrun, hok, hhad⟩ : ∃ c, run (diskStep id)
      ⟨⟨newSession tr [], halves, emptyHalves, false⟩, []⟩ (overtakes (List.replicate 20 7)) = some c ∧
        Allowed (diskStep id) Beginning ⟨⟨newSession tr [], halves, emptyHalves, false⟩, []⟩
          (overtakes (List.replicate 20 7)) ∧ 0 ∈ c.shared.session.tracker.got := by
    obtain rfl := Option.some.inj htr
    exact ⟨_, rfl, by decide +kernel, by decide +kernel⟩
  have hclaimed : (alone c.shared.files).claimed = .ok (∅, 0) := rfl
  have hstored : (alone c.shared.files).stored = flatFetch (diskContent halves c.shared.files) := rfl
  have hpoint : (⟨∅, 0, .starting⟩ : Starter).point = .starting := rfl
  obtain ⟨⟨s, w, hchecks, hend⟩, hall⟩ := had_pieces_survive (by decide) (by decide) htr
    (only_sevens hone.1) laid_halves (by decide) (by decide) (reach_run hok hrun) hstored hpoint hclaimed
  have hcandidate : Candidate (alone c.shared.files) tr 0 := by
    refine ⟨by rw [hone.2]; decide, fun ⟨j, hj⟩ => ?_⟩
    obtain ⟨data, -, -, -, hresume, -⟩ := hj
    cases hresume
  exact ⟨tr, c, s, w, htr, hrun, hchecks, hend, (hall s w hchecks hend).1 0 hhad hcandidate rfl⟩

end CrashRecovery
