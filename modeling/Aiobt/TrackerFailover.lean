import Aiobt.TrackerTiers

/-! # Falling back to the next tracker

When a call of `do_announce` has tried every tracker before it raises. -/
namespace TrackerFailover

open InterleavedProcesses TrackerProtocol TrackerTiers
open TorrentMetadata (TorrentMeta)

/-- The torrent names a tracker. An empty text in `announce` names none. -/
def HasTracker (torrent : TorrentMeta) : Prop :=
  (∃ tier ∈ torrent.announceList.getD [], tier ≠ []) ∨ ∃ url, torrent.announce = some url ∧ url ≠ []

/-- The tiers of a torrent that hold a URL, or `announce` where no tier does. -/
def trackersOf (torrent : TorrentMeta) : List (List Url) :=
  match (torrent.announceList.getD []).filter fun tier => !tier.isEmpty with
  | [] => [[torrent.announce.getD []]]
  | tiers => tiers

def Listed (torrent : TorrentMeta) : Prop :=
  torrent.announceList.getD [] = [] ∨ ∃ tier ∈ torrent.announceList.getD [], tier ≠ []

/-- An answer, `TrackerError` or `OSError`. -/
def tolerated : Outcome → Bool
  | .ok _ => true
  | .error e => caught e

def tries (call : Call) : List (Url × Outcome) :=
  call.past.flatMap Visit.tried ++ (call.visit.map Visit.tried).getD []

def urls (call : Call) : List Url := (tries call).map Prod.fst

def AllTiers (tiers : List (List Url)) (urls : List Url) : Prop :=
  ∃ orders, List.Forall₂ List.Perm orders tiers ∧ urls = orders.flatten

def isTrackerError : Failure → Bool
  | .noUrls => true
  | .allFailed _ _ => true
  | .escaped (.tracker _) => true
  | .escaped _ => false
  | .notInTier => false

/-- The call returns the first answer it gets, having asked tier by tier, or it raises
`TrackerError`, having asked every URL. -/
inductive FailsOver (tiers : List (List Url)) (call : Call) : Prop
  | returns {before url response rest} : call.point = .returned response →
      tries call = before ++ [(url, .ok response)] → (∀ t ∈ before, t.2.isOk = false) →
      AllTiers tiers (urls call ++ rest) → FailsOver tiers call
  | raises {failure} : call.point = .raised failure → isTrackerError failure = true →
      (∀ t ∈ tries call, t.2.isOk = false) → AllTiers tiers (urls call) → FailsOver tiers call

def Ended (call : Call) : Prop :=
  match call.point with
  | .returned _ => True
  | .raised _ => True
  | _ => False

/-- What a call can be given at a point: an outcome while it asks, otherwise the end of an emission. -/
def Fits : Action → Point → Prop
  | .proceeds _, .asking _ => False
  | .proceeds _, _ => True
  | .answers _, .asking _ => True
  | .answers _, _ => False
  | .cancels, _ => False

def urlCount (tiers : List (List Url)) : ℕ := (tiers.map List.length).sum

def pending (s : Session) (call : Call) : ℕ :=
  match call.visit with
  | some v => v.rest.length + urlCount (s.tiers.drop (call.past.length + 1))
  | none => urlCount (s.tiers.drop call.past.length)

def remaining (s : Session) (call : Call) : ℕ :=
  match call.point with
  | .starting => 3 * pending s call + 1
  | .announcing _ => 3 * pending s call + 3
  | .asking _ => 3 * pending s call + 2
  | .failing => 3 * pending s call + 1
  | .responding _ => 1
  | .returned _ => 0
  | .raised _ => 0

variable {tiers : List (List Url)} {s s' : Session} {call call' : Call}

theorem reachTier_remaining {shuffles : ℕ → Shuffle} {left : List (List Url)}
    (hleft : left = s.tiers.drop call.past.length) (hvisit : call.visit = none)
    (h : reachTier shuffles s call left = (s', call')) : remaining s' call' ≤ 3 * urlCount left := by
  induction left generalizing call with
  | nil =>
    cases h
    exact Nat.zero_le _
  | cons found left ih =>
    have hdrop : s.tiers.drop (call.past.length + 1) = left := by
      rw [← List.drop_drop, ← hleft]
      rfl
    cases found with
    | nil =>
      rw [reachTier] at h
      have hlast := ih ?_ ?_ h
      · simpa [urlCount] using hlast
      · rw [List.length_append, List.length_singleton, hdrop]
      · exact hvisit
    | cons head tail =>
      cases h
      have hlength := ((shuffles call.past.length).perm tail).length_eq
      simp only [remaining, pending, Session.emit, List.drop_set_of_lt (Nat.lt_succ_self _), hdrop,
        hlength, urlCount, List.map_cons, List.sum_cons, List.length_cons]
      omega

theorem step_of_next {a : Action} {next : Session × Call} (h : program a s call = some next)
    (hless : remaining next.1 next.2 < remaining s call) :
    ∃ s' call', program a s call = some (s', call') ∧ remaining s' call' < remaining s call :=
  ⟨next.1, next.2, h, hless⟩

theorem nextUrl_remaining (shuffles : ℕ → Shuffle) (s : Session) (call : Call) (v : Visit) :
    remaining (nextUrl shuffles s call v).1 (nextUrl shuffles s call v).2 ≤
      3 * (v.rest.length + urlCount (s.tiers.drop (call.past.length + 1))) := by
  unfold nextUrl
  split
  · next url rest hrest =>
    simp only [remaining, pending, Session.emit, hrest, List.length_cons]
    omega
  · next hrest =>
    refine le_trans (reachTier_remaining ?_ rfl rfl) ?_
    · rw [List.length_append, List.length_singleton]
    · rw [hrest, List.length_nil, Nat.zero_add]

/-- An answer ends the call, or leaves it with the rest of the tier. -/
theorem answer_remaining {cancels : Bool} {v : Visit} {url : Url} (hsame : SameTiers tiers s)
    (hok : CallOk cancels tiers call) (hp : call.point = .asking url) (hv : call.visit = some v)
    (outcome : Outcome) :
    remaining (answer s call v url outcome).1 (answer s call v url outcome).2 <
      remaining s call := by
  cases outcome with
  | ok response =>
    obtain ⟨tier, tier₀, -, -, -, heq⟩ := answer_promotes response hsame hok hv hp
    rw [heq]
    simp only [remaining, hp]
    omega
  | error e =>
    simp only [answer]
    split
    · simp only [remaining, pending, Session.emit, hp, hv]
      omega
    · simp only [remaining, Call.goto, hp]
      omega

/-- A call that has not ended goes on, whatever it is given, and comes nearer to its end. -/
theorem step_remaining {cancels : Bool} {a : Action} (hsame : SameTiers tiers s)
    (hok : CallOk cancels tiers call) (hended : ¬ Ended call) (hfits : Fits a call.point) :
    ∃ s' call', program a s call = some (s', call') ∧ remaining s' call' < remaining s call := by
  have hstage := hok.stage
  cases a with
  | cancels => cases hp : call.point <;> simp [Fits] at hfits
  | proceeds shuffles =>
    cases hp : call.point with
    | starting =>
      simp only [Stage, hp] at hstage
      obtain ⟨hpast, hvisit⟩ := hstage
      have hpending : remaining s call = 3 * urlCount s.tiers + 1 := by
        simp [remaining, pending, hp, hvisit, hpast]
      by_cases hempty : s.tiers = []
      · refine ⟨s, call.goto (.raised .noUrls), by simp [program, hp, hempty], ?_⟩
        rw [hpending]
        exact Nat.succ_pos _
      · have hnext : program (.proceeds shuffles) s call =
            some (reachTier shuffles s { call with request := some (makeRequest s call) } s.tiers) := by
          simp only [program, hp, if_neg hempty]
        refine step_of_next hnext ?_
        rw [hpending, Nat.lt_succ_iff]
        refine reachTier_remaining ?_ ?_ rfl
        · rw [hpast, List.length_nil, List.drop_zero]
        · exact hvisit
    | announcing url =>
      refine ⟨s, call.goto (.asking url), by simp [program, hp], ?_⟩
      simp [remaining, pending, hp, Call.goto]
    | asking url => simp [Fits, hp] at hfits
    | failing =>
      simp only [Stage, hp] at hstage
      obtain ⟨v, hv, -⟩ := hstage
      have hpending : remaining s call =
          3 * (v.rest.length + urlCount (s.tiers.drop (call.past.length + 1))) + 1 := by
        simp only [remaining, pending, hp, hv]
      have hnext : program (.proceeds shuffles) s call = some (nextUrl shuffles s call v) := by
        simp only [program, hp, hv]
      refine step_of_next hnext ?_
      rw [hpending, Nat.lt_succ_iff]
      exact nextUrl_remaining shuffles s call v
    | responding response =>
      refine ⟨s, call.goto (.returned response), by simp [program, hp], ?_⟩
      simp [remaining, hp, Call.goto]
    | returned response => simp [Ended, hp] at hended
    | raised failure => simp [Ended, hp] at hended
  | answers outcome =>
    cases hp : call.point with
    | asking url =>
      simp only [Stage, hp] at hstage
      obtain ⟨v, hv, -⟩ := hstage
      have hnext : program (.answers outcome) s call = some (answer s call v url outcome) := by
        simp only [program, hp, hv]
      exact step_of_next hnext (answer_remaining hsame hok hp hv outcome)
    | _ => simp [Fits, hp] at hfits

theorem isOk_of_goesOn {outcome : Outcome} (h : goesOn outcome = true) :
    outcome.isOk = false ∧ tolerated outcome = true := by
  cases outcome with
  | ok response => cases h
  | error e => exact ⟨rfl, h⟩

theorem past_tries {past : List Visit}
    (h : List.Forall₂ (fun v tier => v.Of tier ∧ v.Exhausted) past tiers) :
    List.Forall₂ List.Perm (past.map Visit.order) tiers ∧
      (past.flatMap Visit.tried).map Prod.fst = (past.map Visit.order).flatten ∧
      ∀ t ∈ past.flatMap Visit.tried, goesOn t.2 = true := by
  induction h with
  | nil => exact ⟨.nil, rfl, nofun⟩
  | cons hhead htail ih =>
    obtain ⟨hperm, hurls, hfail⟩ := ih
    refine ⟨.cons hhead.1.order hperm, ?_, ?_⟩
    · rw [List.flatMap_cons, List.map_append, hhead.2.1, hurls, List.map_cons, List.flatten_cons]
    · exact List.forall_mem_append.mpr ⟨hhead.2.2, hfail⟩

theorem tries_of_visit {v : Visit} (hv : call.visit = some v) :
    tries call = call.past.flatMap Visit.tried ++ v.tried := by
  rw [tries, hv]
  rfl

/-- In a tier that is not left, the call has asked the first URLs of its order. -/
theorem allTiers_of_visit {v : Visit} (hok : InOrder tiers call) (hv : call.visit = some v) :
    ∃ rest, AllTiers tiers (urls call ++ rest) := by
  obtain ⟨tier, htier, hof, -⟩ := hok.visit v hv
  obtain ⟨hperm, hurls, -⟩ := past_tries hok.past
  obtain ⟨rest, hrest⟩ := hof.tried
  have htiers : tiers = tiers.take call.past.length ++ tier :: tiers.drop (call.past.length + 1) := by
    rw [← ByteStrings.drop_of_getElem? htier, List.take_append_drop]
  refine ⟨rest ++ (tiers.drop (call.past.length + 1)).flatten,
    call.past.map Visit.order ++ v.order :: tiers.drop (call.past.length + 1), ?_, ?_⟩
  · have horders : List.Forall₂ List.Perm
        (call.past.map Visit.order ++ v.order :: tiers.drop (call.past.length + 1))
        (tiers.take call.past.length ++ tier :: tiers.drop (call.past.length + 1)) :=
      List.rel_append hperm (.cons hof.order (List.forall₂_same.mpr fun t _ => .refl t))
    rw [← htiers] at horders
    exact horders
  · rw [urls, tries_of_visit hv, List.map_append, hurls, List.flatten_append, List.flatten_cons,
      ← hrest]
    simp only [List.append_assoc]

theorem failsOver_iff (hne : tiers ≠ []) (hok : CallOk false tiers call) (hended : Ended call) :
    FailsOver tiers call ↔ ∀ t ∈ tries call, tolerated t.2 = true := by
  obtain ⟨hperm, hurls, hfail⟩ := past_tries hok.order.past
  have hstage := hok.stage
  cases hp : call.point with
  | returned response =>
    simp only [Stage, hp] at hstage
    obtain ⟨v, before, url, hv, htried, hbefore⟩ := hstage
    have htries : tries call =
        (call.past.flatMap Visit.tried ++ before) ++ [(url, .ok response)] := by
      rw [tries_of_visit hv, htried, List.append_assoc]
    have hall : ∀ t ∈ call.past.flatMap Visit.tried ++ before, goesOn t.2 = true :=
      List.forall_mem_append.mpr ⟨hfail, hbefore⟩
    obtain ⟨rest, hrest⟩ := allTiers_of_visit hok.order hv
    refine iff_of_true (.returns hp htries (fun t ht => (isOk_of_goesOn (hall t ht)).1) hrest) ?_
    rw [htries]
    exact forall_mem_concat (fun t ht => (isOk_of_goesOn (hall t ht)).2) rfl
  | raised failure =>
    cases failure with
    | noUrls =>
      simp only [Stage, hp] at hstage
      exact absurd hstage.1 hne
    | allFailed count lastError =>
      simp only [Stage, hp] at hstage
      obtain ⟨hvisit, hlength⟩ := hstage
      have htries : tries call = call.past.flatMap Visit.tried := by
        rw [tries, hvisit]
        exact List.append_nil _
      rw [hlength, List.take_length] at hperm
      refine iff_of_true (.raises hp rfl ?_ ⟨_, hperm, ?_⟩) ?_
      · rw [htries]
        intro t ht
        exact (isOk_of_goesOn (hfail t ht)).1
      · rw [urls, htries, hurls]
      · rw [htries]
        intro t ht
        exact (isOk_of_goesOn (hfail t ht)).2
    | escaped e =>
      simp only [Stage, hp] at hstage
      obtain hfree | ⟨v, before, url, hv, htried, hnot⟩ := hstage
      · cases hfree
      · refine iff_of_false ?_ ?_
        · rintro (⟨hreturned, -⟩ | ⟨hraised, htracker, -⟩)
          · cases hp.symm.trans hreturned
          · cases hp.symm.trans hraised
            cases e with
            | tracker error => cases hnot
            | _ => cases htracker
        · intro hall
          have hlast := hall (url, .error e) ?_
          · cases hnot.symm.trans hlast
          · rw [tries_of_visit hv, htried, ← List.append_assoc]
            exact List.mem_append_right _ List.mem_cons_self
    | notInTier =>
      simp only [Stage, hp] at hstage
  | _ => simp [Ended, hp] at hended

theorem build_of_listed {torrent : TorrentMeta} (hurl : HasTracker torrent)
    (hlisted : Listed torrent) :
    buildTrackerTiers torrent = trackersOf torrent ∧ trackersOf torrent ≠ [] := by
  unfold buildTrackerTiers trackersOf
  rcases hlisted with hempty | ⟨tier, hmem, hne⟩
  · obtain ⟨tier, hmem, -⟩ | ⟨url, hannounce, hne⟩ := hurl
    · rw [hempty] at hmem
      cases hmem
    · obtain ⟨a, rest, rfl⟩ := List.exists_cons_of_ne_nil hne
      rw [hempty, hannounce]
      exact ⟨rfl, nofun⟩
  · have hin : tier ∈ (torrent.announceList.getD []).filter fun tier => !tier.isEmpty := by
      refine List.mem_filter.mpr ⟨hmem, ?_⟩
      rw [Bool.not_eq_true', List.isEmpty_eq_false_iff]
      exact hne
    split
    · next hempty =>
      rw [hempty] at hmem
      cases hmem
    · split
      · next hnone =>
        rw [hnone] at hin
        cases hin
      · next hsome => exact ⟨rfl, List.ne_nil_of_mem hin⟩

theorem build_of_not_listed {torrent : TorrentMeta} (hnot : ¬ Listed torrent) :
    buildTrackerTiers torrent = [] ∧ ∃ url, trackersOf torrent = [[url]] := by
  obtain ⟨hsome, hall⟩ := not_or.mp hnot
  have hnone : ((torrent.announceList.getD []).filter fun tier => !tier.isEmpty) = [] := by
    refine List.filter_eq_nil_iff.mpr fun tier hmem hne => hall ⟨tier, hmem, ?_⟩
    rintro rfl
    cases hne
  unfold buildTrackerTiers trackersOf
  refine ⟨?_, torrent.announce.getD [], by rw [hnone]⟩
  split
  · next hempty => exact absurd hempty hsome
  · exact hnone

theorem not_failsOver_of_no_tiers {url : Url} (hok : InOrder [] call) : ¬ FailsOver [[url]] call := by
  have hpast : call.past = [] := by
    have hnone := hok.past
    rw [List.take_nil] at hnone
    exact List.forall₂_nil_right_iff.mp hnone
  have hvisit : call.visit = none := by
    apply Option.eq_none_iff_forall_ne_some.mpr
    intro v hv
    obtain ⟨tier, htier, -⟩ := hok.visit v hv
    cases htier
  have htries : tries call = [] := by
    rw [tries, hpast, hvisit]
    rfl
  rintro (⟨-, hlast, -⟩ | ⟨-, -, -, orders, hperm, hurls⟩)
  · rw [htries] at hlast
    exact List.append_ne_nil_of_right_ne_nil _ (List.cons_ne_nil _ _) hlast.symm
  · obtain ⟨order, rest, horder, -, rfl⟩ := List.forall₂_cons_right_iff.mp hperm
    obtain rfl := List.perm_singleton.mp horder
    rw [urls, htries] at hurls
    cases hurls

/-- A call for a torrent that names a tracker comes to an end. It fails over, if and only if the
announce list holds a URL or is absent, and every URL that was asked has answered or failed with
`TrackerError` or `OSError`. -/
theorem failover_total (torrent : TorrentMeta) (hurl : HasTracker torrent) (session : Session)
    (htiers : session.tiers = buildTrackerTiers torrent) (c : Config Session Call)
    (h : Reach program (Moves false) ⟨session, []⟩ c) (i : ℕ) (call : Call)
    (hcall : c.procs[i]? = some call) :
    (Ended call → (FailsOver (trackersOf torrent) call ↔
        Listed torrent ∧ ∀ t ∈ tries call, tolerated t.2 = true)) ∧
      (¬ Ended call → ∀ a, Fits a call.point → ∃ s' call', program a c.shared call = some (s', call') ∧
        remaining s' call' < remaining c.shared call) := by
  obtain ⟨hsame, hcalls⟩ := calls_ok h
  have hok := hcalls call (List.mem_of_getElem? hcall)
  refine ⟨fun hended => ?_, fun hgoes a hfits => step_remaining hsame hok hgoes hfits⟩
  rw [htiers] at hok
  by_cases hlisted : Listed torrent
  · obtain ⟨hbuild, hne⟩ := build_of_listed hurl hlisted
    rw [hbuild] at hok
    rw [failsOver_iff hne hok hended, and_iff_right hlisted]
  · obtain ⟨hbuild, url, htrackers⟩ := build_of_not_listed hlisted
    rw [hbuild] at hok
    rw [htrackers]
    exact iff_of_false (not_failsOver_of_no_tiers hok.order) fun hall => hlisted hall.1

def twoTiers : TorrentMeta :=
  ⟨⟨[116], 65536, List.replicate 20 7, some 65536, none, false⟩, [], none, some [[[1]], [[2]]], none,
    none, none⟩

/-- The first tracker cannot be reached, and the second one answers. -/
theorem failover_total_two_tiers :
    ∃ c c' call, run program ⟨newSession (buildTrackerTiers twoTiers), []⟩
        (fallBack ⟨1800, [], 0, 0⟩) = some c ∧
      apply program c (.act 0 (.proceeds fun _ => reversing)) = some c' ∧ c'.procs = [call] ∧
      call.point = .returned ⟨1800, [], 0, 0⟩ ∧ FailsOver (trackersOf twoTiers) call := by
  obtain ⟨c, c', call, hrun, hlast, hprocs, hpoint, htries⟩ :
      ∃ c c' call, run program ⟨newSession (buildTrackerTiers twoTiers), []⟩
          (fallBack ⟨1800, [], 0, 0⟩) = some c ∧
        apply program c (.act 0 (.proceeds fun _ => reversing)) = some c' ∧ c'.procs = [call] ∧
        call.point = .returned ⟨1800, [], 0, 0⟩ ∧
        tries call = [([1], .error .os), ([2], .ok ⟨1800, [], 0, 0⟩)] :=
    ⟨_, _, _, rfl, rfl, rfl, rfl, rfl⟩
  have hlisted : ∃ tier ∈ twoTiers.announceList.getD [], tier ≠ [] :=
    ⟨[[1]], List.mem_cons_self, nofun⟩
  have hreach : Reach program (Moves false) ⟨newSession (buildTrackerTiers twoTiers), []⟩ c' :=
    .next (.act 0 (.proceeds fun _ => reversing)) (reach_run (fallBack_moves false _ _) hrun) trivial
      hlast
  have htotal := failover_total twoTiers (Or.inl hlisted) _ rfl c' hreach 0 call (by rw [hprocs]; rfl)
  refine ⟨c, c', call, hrun, hlast, hprocs, hpoint, (htotal.1 ?_).mpr ⟨Or.inr hlisted, ?_⟩⟩
  · simp only [Ended, hpoint]
  · rw [htries]
    simp [tolerated, caught]

/-- The reply of the first tracker is a list: the second one is not asked. -/
theorem malformed_reply_escapes :
    ∃ c call, run program ⟨newSession (buildTrackerTiers twoTiers), []⟩
        [.spawn (newCall [] 0), .act 0 (.proceeds fun _ => reversing),
          .act 0 (.proceeds fun _ => reversing),
          .act 0 (.answers (parseHttpResponse 4300 100 [108, 101]))] = some c ∧
      c.procs = [call] ∧ Ended call ∧ urls call = [[1]] ∧
      ¬ FailsOver (trackersOf twoTiers) call := by
  refine ⟨_, _, rfl, rfl, trivial, rfl, ?_⟩
  rintro (⟨hpoint, -⟩ | ⟨hpoint, htracker, -⟩)
  · cases hpoint
  · cases hpoint
    cases htracker

end TrackerFailover
