import Aiobt.TrackerProtocol
import Aiobt.TorrentMetadata
import Aiobt.InterleavedProcesses

/-! # Tiers of trackers

`_TorrentSession.do_announce` and `_build_tracker_tiers`. Any number of calls share the tiers of a
session. The time of the last announce is left out. -/
namespace TrackerTiers

open ByteStrings InterleavedProcesses TrackerProtocol
open SurrogateUtf8 (PyStr)
open TorrentMetadata (TorrentMeta)

structure Shuffle where
  order : List Url → List Url
  perm : ∀ urls, (order urls).Perm urls

inductive Event where
  | trackerAnnounce (url : Url)
  | trackerResponse (response : AnnounceResponse)
  | trackerFailed (error : AnnounceError)

structure Session where
  tiers : List (List Url)
  infoHash : Bytes
  peerId : Bytes
  listenPort : ℤ
  totalLength : ℤ
  bytesDownloaded : ℤ
  bytesUploaded : ℤ
  trackerPeerCount : ℕ
  events : List Event

def buildTrackerTiers (torrent : TorrentMeta) : List (List Url) :=
  match torrent.announceList.getD [] with
  | [] =>
    match torrent.announce.getD [] with
    | [] => []
    | url => [[url]]
  | tiers => tiers.filter fun tier => !tier.isEmpty

/-- How a call of `do_announce` goes through a tier. -/
structure Visit where
  found : List Url
  /-- The copy that the call iterates, made after the shuffle. -/
  order : List Url
  tried : List (Url × Outcome)
  rest : List Url

inductive Failure where
  | noUrls
  | allFailed (urls : ℕ) (lastError : Option AnnounceError)
  /-- An exception of `announce` that is not caught, or the cancellation of the call. -/
  | escaped (error : AnnounceError)
  | notInTier

inductive Point where
  | starting
  | announcing (url : Url)
  | asking (url : Url)
  | failing
  | responding (response : AnnounceResponse)
  | returned (response : AnnounceResponse)
  | raised (failure : Failure)

/-- A call of `do_announce`. The next tier is the one behind those in `past`. -/
structure Call where
  event : PyStr
  key : ℕ
  request : Option AnnounceRequest
  past : List Visit
  visit : Option Visit
  lastError : Option AnnounceError
  point : Point

def newCall (event : PyStr) (key : ℕ) : Call := ⟨event, key, none, [], none, none, .starting⟩

def Call.goto (call : Call) (point : Point) : Call := { call with point := point }

def Session.emit (s : Session) (e : Event) : Session := { s with events := s.events ++ [e] }

inductive Action where
  /-- An emission is over, or the call begins. `shuffles` has the shuffle for each tier. -/
  | proceeds (shuffles : ℕ → Shuffle)
  /-- `announce(url, request)` returns or raises, or the timeout expires. -/
  | answers (outcome : Outcome)
  | cancels

def caught : AnnounceError → Bool
  | .tracker _ => true
  | .os => true
  | _ => false

def makeRequest (s : Session) (call : Call) : AnnounceRequest where
  infoHash := s.infoHash
  peerId := s.peerId
  port := s.listenPort
  uploaded := s.bytesUploaded
  downloaded := s.bytesDownloaded
  left := s.totalLength - s.bytesDownloaded
  compact := true
  event := call.event
  numwant := 50
  key := call.key

/-- Goes on with the tiers that are left, the first of which has the index `call.past.length`. -/
def reachTier (shuffles : ℕ → Shuffle) (s : Session) (call : Call) : List (List Url) → Session × Call
  | [] => (s, call.goto (.raised (.allFailed (s.tiers.map List.length).sum call.lastError)))
  | [] :: tiers => reachTier shuffles s { call with past := call.past ++ [⟨[], [], [], []⟩] } tiers
  | (head :: tail) :: _ =>
    let shuffled := (shuffles call.past.length).order tail
    (({ s with tiers := s.tiers.set call.past.length (head :: shuffled) }).emit
        (.trackerAnnounce head),
      { call with
        visit := some ⟨head :: tail, head :: shuffled, [], shuffled⟩
        point := .announcing head })

def nextUrl (shuffles : ℕ → Shuffle) (s : Session) (call : Call) (visit : Visit) : Session × Call :=
  match visit.rest with
  | url :: rest =>
    (s.emit (.trackerAnnounce url),
      { call with visit := some { visit with rest := rest }, point := .announcing url })
  | [] =>
    reachTier shuffles s { call with past := call.past ++ [visit], visit := none }
      (s.tiers.drop (call.past.length + 1))

/-- `none` where `tier[0]` or `tier.remove(url)` raises. -/
def promote (url : Url) : List Url → Option (List Url)
  | [] => none
  | head :: tail =>
    if head = url then some (head :: tail)
    else if url ∈ tail then some (url :: (head :: tail).erase url)
    else none

def answer (s : Session) (call : Call) (visit : Visit) (url : Url) (outcome : Outcome) :
    Session × Call :=
  let call := { call with visit := some { visit with tried := visit.tried ++ [(url, outcome)] } }
  match outcome with
  | .ok response =>
    let s := { s with trackerPeerCount := response.peers.length }
    match promote url (s.tiers.getD call.past.length []) with
    | some tier =>
      (({ s with tiers := s.tiers.set call.past.length tier }).emit (.trackerResponse response),
        call.goto (.responding response))
    | none => (s, call.goto (.raised .notInTier))
  | .error e =>
    if caught e then
      (s.emit (.trackerFailed e), { call with lastError := some e, point := .failing })
    else (s, call.goto (.raised (.escaped e)))

def program : Program Session Call Action
  | .proceeds shuffles, s, call =>
    match call.point, call.visit with
    | .starting, _ =>
      if s.tiers = [] then some (s, call.goto (.raised .noUrls))
      else some (reachTier shuffles s { call with request := some (makeRequest s call) } s.tiers)
    | .announcing url, _ => some (s, call.goto (.asking url))
    | .failing, some visit => some (nextUrl shuffles s call visit)
    | .responding response, _ => some (s, call.goto (.returned response))
    | _, _ => none
  | .answers outcome, s, call =>
    match call.point, call.visit with
    | .asking url, some visit => some (answer s call visit url outcome)
    | _, _ => none
  | .cancels, s, call =>
    match call.point with
    | .returned _ => none
    | .raised _ => none
    | _ => some (s, call.goto (.raised (.escaped .cancelled)))

/-- Calls are made at any time, and are cancelled where `cancels` says so. -/
def Moves (cancels : Bool) (_ : Config Session Call) : Move Call Action → Prop
  | .spawn call => call = newCall call.event call.key
  | .act _ .cancels => cancels = true
  | .act _ _ => True

def goesOn : Outcome → Bool
  | .ok _ => false
  | .error e => caught e

/-- The visit begins with the head that the call found, and tries the URLs of the tier in order. -/
structure Visit.Of (v : Visit) (tier : List Url) : Prop where
  found : v.found.Perm tier
  order : v.order.Perm tier
  head : v.order.head? = v.found.head?
  tried : v.tried.map Prod.fst <+: v.order

def Visit.Exhausted (v : Visit) : Prop :=
  v.tried.map Prod.fst = v.order ∧ ∀ t ∈ v.tried, goesOn t.2 = true

/-- The call has tried all URLs of the tiers that it has left, and is at the next one. -/
structure InOrder (tiers : List (List Url)) (call : Call) : Prop where
  past : List.Forall₂ (fun v tier => v.Of tier ∧ v.Exhausted) call.past (tiers.take call.past.length)
  visit : ∀ v, call.visit = some v → ∃ tier, tiers[call.past.length]? = some tier ∧ v.Of tier ∧
    ∀ t ∈ v.tried.dropLast, goesOn t.2 = true

def Stage (cancels : Bool) (tiers : List (List Url)) (call : Call) : Prop :=
  match call.point with
  | .starting => call.past = [] ∧ call.visit = none
  | .announcing url => ∃ v, call.visit = some v ∧ v.order = v.tried.map Prod.fst ++ url :: v.rest ∧
      ∀ t ∈ v.tried, goesOn t.2 = true
  | .asking url => ∃ v, call.visit = some v ∧ v.order = v.tried.map Prod.fst ++ url :: v.rest ∧
      ∀ t ∈ v.tried, goesOn t.2 = true
  | .failing => ∃ v, call.visit = some v ∧ v.order = v.tried.map Prod.fst ++ v.rest ∧
      ∀ t ∈ v.tried, goesOn t.2 = true
  | .responding response => ∃ v before url, call.visit = some v ∧
      v.tried = before ++ [(url, .ok response)] ∧ ∀ t ∈ before, goesOn t.2 = true
  | .returned response => ∃ v before url, call.visit = some v ∧
      v.tried = before ++ [(url, .ok response)] ∧ ∀ t ∈ before, goesOn t.2 = true
  | .raised .noUrls => tiers = [] ∧ call.past = [] ∧ call.visit = none
  | .raised (.allFailed _ _) => call.visit = none ∧ call.past.length = tiers.length
  | .raised (.escaped e) => cancels = true ∨ ∃ v before url, call.visit = some v ∧
      v.tried = before ++ [(url, .error e)] ∧ caught e = false
  | .raised .notInTier => False

section

variable {α β : Type} {R : α → β → Prop} {l : List α} {l₀ : List β} {k : ℕ} {a : α} {b : β}

theorem forall₂_set (h : List.Forall₂ R l l₀) (hk : l₀[k]? = some b) (hR : R a b) :
    List.Forall₂ R (l.set k a) l₀ := by
  induction h generalizing k with
  | nil => exact .nil
  | cons hhead htail ih =>
    cases k with
    | zero =>
      obtain rfl := Option.some.inj hk
      exact .cons hR htail
    | succ k => exact .cons hhead (ih hk)

theorem forall₂_getElem? (h : List.Forall₂ R l l₀) (hk : l₀[k]? = some b) :
    ∃ a, l[k]? = some a ∧ R a b := by
  induction h generalizing k with
  | nil => cases hk
  | cons hhead htail ih =>
    cases k with
    | zero =>
      obtain rfl := Option.some.inj hk
      exact ⟨_, rfl, hhead⟩
    | succ k => exact ih hk

theorem forall₂_take_succ (h : List.Forall₂ R l (l₀.take l.length)) (hk : l₀[l.length]? = some b)
    (hR : R a b) : List.Forall₂ R (l ++ [a]) (l₀.take (l ++ [a]).length) := by
  rw [List.length_append, List.length_singleton, List.take_add_one, hk]
  exact List.rel_append h (.cons hR .nil)

end

theorem promote_of_mem {url : Url} {tier : List Url} (h : url ∈ tier) :
    ∃ tier', promote url tier = some tier' ∧ tier'.Perm tier ∧ tier'.head? = some url := by
  cases tier with
  | nil => cases h
  | cons head tail =>
    by_cases heq : head = url
    · exact ⟨head :: tail, if_pos heq, .refl _, congrArg some heq⟩
    · have hmem : url ∈ tail := (List.mem_cons.mp h).resolve_left (Ne.symm heq)
      refine ⟨url :: (head :: tail).erase url, ?_, (List.perm_cons_erase h).symm, rfl⟩
      rw [promote, if_neg heq, if_pos hmem]

def SameTiers (tiers : List (List Url)) (s : Session) : Prop := List.Forall₂ List.Perm s.tiers tiers

structure CallOk (cancels : Bool) (tiers : List (List Url)) (call : Call) : Prop where
  order : InOrder tiers call
  stage : Stage cancels tiers call

variable {cancels : Bool} {tiers : List (List Url)} {s s' : Session} {call call' : Call}

theorem visit_nil : (⟨[], [], [], []⟩ : Visit).Of [] ∧ (⟨[], [], [], []⟩ : Visit).Exhausted :=
  ⟨⟨.refl _, .refl _, rfl, List.prefix_rfl⟩, rfl, fun _ ht => absurd ht List.not_mem_nil⟩

theorem reachTier_ok {shuffles : ℕ → Shuffle} {left : List (List Url)} (hsame : SameTiers tiers s)
    (hleft : List.Forall₂ List.Perm left (tiers.drop call.past.length))
    (hpast : List.Forall₂ (fun v tier => v.Of tier ∧ v.Exhausted) call.past
      (tiers.take call.past.length)) (hvisit : call.visit = none)
    (h : reachTier shuffles s call left = (s', call')) :
    SameTiers tiers s' ∧ CallOk cancels tiers call' := by
  induction left generalizing call with
  | nil =>
    cases h
    have hdone : call.past.length = tiers.length := by
      have hlength := hpast.length_eq
      have hover := List.drop_eq_nil_iff.mp (List.forall₂_nil_left_iff.mp hleft)
      rw [List.length_take] at hlength
      omega
    refine ⟨hsame, ⟨hpast, fun v hv => ?_⟩, hvisit, hdone⟩
    cases hvisit.symm.trans hv
  | cons found left ih =>
    obtain ⟨tier, rest, hperm, hrest, hdrop⟩ := List.forall₂_cons_left_iff.mp hleft
    have htier : tiers[call.past.length]? = some tier := getElem?_of_drop hdrop
    cases found with
    | nil =>
      obtain rfl := hperm.nil_eq
      rw [reachTier] at h
      refine ih ?_ ?_ ?_ h
      · rw [List.length_append, List.length_singleton, ← List.drop_drop, hdrop]
        exact hrest
      · exact forall₂_take_succ hpast htier visit_nil
      · exact hvisit
    | cons head tail =>
      cases h
      have hshuffled : (head :: (shuffles call.past.length).order tail).Perm tier :=
        (((shuffles call.past.length).perm tail).cons head).trans hperm
      refine ⟨forall₂_set hsame htier hshuffled, ⟨hpast, ?_⟩, ?_⟩
      · rintro v hv
        obtain rfl := Option.some.inj hv
        exact ⟨tier, htier, ⟨hperm, hshuffled, rfl, List.nil_prefix⟩, nofun⟩
      · exact ⟨_, rfl, rfl, nofun⟩

theorem nextUrl_ok {shuffles : ℕ → Shuffle} {v : Visit} (hsame : SameTiers tiers s)
    (hok : CallOk cancels tiers call) (hpoint : call.point = .failing) (hv : call.visit = some v)
    (h : nextUrl shuffles s call v = (s', call')) :
    SameTiers tiers s' ∧ CallOk cancels tiers call' := by
  have hstage := hok.stage
  simp only [Stage, hpoint] at hstage
  obtain ⟨w, hw, horder, hfail⟩ := hstage
  obtain rfl := Option.some.inj (hv.symm.trans hw)
  obtain ⟨tier, htier, hof, -⟩ := hok.order.visit v hv
  unfold nextUrl at h
  split at h
  · next url rest hrest =>
    cases h
    refine ⟨hsame, ⟨hok.order.past, ?_⟩, ?_⟩
    · rintro w hw
      obtain rfl := Option.some.inj hw
      exact ⟨tier, htier, ⟨hof.found, hof.order, hof.head, hof.tried⟩,
        fun t ht => hfail t (List.mem_of_mem_dropLast ht)⟩
    · exact ⟨_, rfl, by rw [horder, hrest], hfail⟩
  · next hrest =>
    rw [hrest, List.append_nil] at horder
    refine reachTier_ok hsame ?_ ?_ rfl h
    · rw [List.length_append, List.length_singleton]
      exact List.forall₂_drop _ hsame
    · exact forall₂_take_succ hok.order.past htier ⟨hof, horder.symm, hfail⟩

theorem inOrder_tried {v : Visit} {url : Url} {outcome : Outcome} (hok : InOrder tiers call)
    (hv : call.visit = some v) (horder : v.order = v.tried.map Prod.fst ++ url :: v.rest)
    (hfail : ∀ t ∈ v.tried, goesOn t.2 = true)
    (hpast : call'.past = call.past)
    (hvisit : call'.visit = some { v with tried := v.tried ++ [(url, outcome)] }) :
    InOrder tiers call' := by
  obtain ⟨tier, htier, hof, -⟩ := hok.visit v hv
  refine ⟨hpast ▸ hok.past, fun w hw => ?_⟩
  obtain rfl := Option.some.inj (hvisit.symm.trans hw)
  refine ⟨tier, hpast ▸ htier, ⟨hof.found, hof.order, hof.head, ?_⟩, ?_⟩
  · refine ⟨v.rest, ?_⟩
    rw [List.map_append, horder, List.append_assoc]
    rfl
  · rw [List.dropLast_concat]
    exact hfail

/-- While a URL is asked, it stands between those that were tried and the rest. -/
theorem CallOk.asked {v : Visit} {url : Url} (h : CallOk cancels tiers call)
    (hpoint : call.point = .asking url) (hv : call.visit = some v) :
    v.order = v.tried.map Prod.fst ++ url :: v.rest ∧ ∀ t ∈ v.tried, goesOn t.2 = true := by
  have hstage := h.stage
  simp only [Stage, hpoint] at hstage
  obtain ⟨w, hw, horder, hfail⟩ := hstage
  obtain rfl := Option.some.inj (hv.symm.trans hw)
  exact ⟨horder, hfail⟩

/-- After a success the URL is at the head of its tier. -/
theorem answer_promotes {v : Visit} {url : Url} (response : AnnounceResponse)
    (hsame : SameTiers tiers s) (hok : CallOk cancels tiers call) (hv : call.visit = some v)
    (hpoint : call.point = .asking url) :
    ∃ tier tier₀, tiers[call.past.length]? = some tier₀ ∧ tier.Perm tier₀ ∧ tier.head? = some url ∧
      answer s call v url (.ok response) =
        (({ s with
            trackerPeerCount := response.peers.length
            tiers := s.tiers.set call.past.length tier }).emit (.trackerResponse response),
          { call with
            visit := some { v with tried := v.tried ++ [(url, .ok response)] }
            point := .responding response }) := by
  obtain ⟨horder, -⟩ := hok.asked hpoint hv
  obtain ⟨tier₀, htier₀, hof, -⟩ := hok.order.visit v hv
  obtain ⟨tier, htier, hperm⟩ := forall₂_getElem? hsame htier₀
  have hmem : url ∈ tier := by
    refine hperm.mem_iff.mpr (hof.order.mem_iff.mp ?_)
    rw [horder]
    exact List.mem_append_right _ List.mem_cons_self
  obtain ⟨tier', hpromote, hperm', hhead⟩ := promote_of_mem hmem
  refine ⟨tier', tier₀, htier₀, hperm'.trans hperm, hhead, ?_⟩
  have htier : s.tiers.getD call.past.length [] = tier := by
    rw [List.getD_eq_getElem?_getD, htier, Option.getD_some]
  simp only [answer, htier, hpromote, Call.goto]

theorem answer_ok {v : Visit} {url : Url} {outcome : Outcome} (hsame : SameTiers tiers s)
    (hok : CallOk cancels tiers call) (hpoint : call.point = .asking url) (hv : call.visit = some v)
    (h : answer s call v url outcome = (s', call')) :
    SameTiers tiers s' ∧ CallOk cancels tiers call' := by
  obtain ⟨horder, hfail⟩ := hok.asked hpoint hv
  have hin : ∀ {call' : Call}, call'.past = call.past →
      call'.visit = some { v with tried := v.tried ++ [(url, outcome)] } → InOrder tiers call' :=
    fun hpast hvisit => inOrder_tried hok.order hv horder hfail hpast hvisit
  cases outcome with
  | ok response =>
    obtain ⟨tier, tier₀, htier₀, hperm, -, heq⟩ :=
      answer_promotes response hsame hok hv hpoint
    cases heq.symm.trans h
    exact ⟨forall₂_set hsame htier₀ hperm, hin rfl rfl, _, _, _, rfl, rfl, hfail⟩
  | error e =>
    simp only [answer] at h
    split at h
    · next hcaught =>
      cases h
      refine ⟨hsame, hin rfl rfl, _, rfl, ?_, ?_⟩
      · rw [List.map_append, horder, List.append_assoc]
        rfl
      · exact forall_mem_concat hfail hcaught
    · next hnot =>
      cases h
      exact ⟨hsame, hin rfl rfl, Or.inr ⟨_, _, _, rfl, rfl, Bool.eq_false_iff.mpr hnot⟩⟩

theorem InOrder.congr (h : InOrder tiers call) (hpast : call'.past = call.past)
    (hvisit : call'.visit = call.visit) : InOrder tiers call' where
  past := hpast ▸ h.past
  visit := by
    rw [hpast, hvisit]
    exact h.visit

theorem step_ok {a : Action} (hsame : SameTiers tiers s) (hok : CallOk cancels tiers call)
    (hcancels : a = .cancels → cancels = true) (h : program a s call = some (s', call')) :
    SameTiers tiers s' ∧ CallOk cancels tiers call' := by
  have hstage := hok.stage
  cases a with
  | proceeds shuffles =>
    simp only [program] at h
    split at h
    · next hpoint =>
      simp only [Stage, hpoint] at hstage
      split at h
      · next hempty =>
        cases h
        have htiers : tiers = [] := by
          rw [SameTiers, hempty] at hsame
          exact List.forall₂_nil_left_iff.mp hsame
        exact ⟨hsame, hok.order.congr rfl rfl, htiers, hstage.1, hstage.2⟩
      · refine reachTier_ok hsame ?_ ?_ ?_ (Option.some.inj h)
        · rw [hstage.1]
          exact hsame
        · exact hok.order.past
        · exact hstage.2
    · next url hpoint =>
      cases h
      simp only [Stage, hpoint] at hstage
      exact ⟨hsame, hok.order.congr rfl rfl, hstage⟩
    · next v hpoint hv => exact nextUrl_ok hsame hok hpoint hv (Option.some.inj h)
    · next response hpoint =>
      cases h
      simp only [Stage, hpoint] at hstage
      exact ⟨hsame, hok.order.congr rfl rfl, hstage⟩
    · cases h
  | answers outcome =>
    simp only [program] at h
    split at h
    · next url v hpoint hv => exact answer_ok hsame hok hpoint hv (Option.some.inj h)
    · cases h
  | cancels =>
    simp only [program] at h
    split at h
    · cases h
    · cases h
    · cases h
      exact ⟨hsame, hok.order.congr rfl rfl, Or.inl (hcancels rfl)⟩

theorem newCall_ok (event : PyStr) (key : ℕ) : CallOk cancels tiers (newCall event key) :=
  ⟨⟨.nil, nofun⟩, rfl, rfl⟩

theorem calls_ok {session : Session} {c : Config Session Call}
    (h : Reach program (Moves cancels) ⟨session, []⟩ c) :
    SameTiers session.tiers c.shared ∧ ∀ call ∈ c.procs, CallOk cancels session.tiers call := by
  refine h.rely_guarantee (G := SameTiers session.tiers) (L := fun _ => CallOk cancels session.tiers)
    (R := fun _ _ => True) (List.forall₂_same.mpr fun tier _ => .refl tier) (by simp) ?_ ?_ ?_
  · intro c call _ hnew
    have hnew : call = newCall call.event call.key := hnew
    rw [hnew]
    exact newCall_ok _ _
  · intro c i a call s call' hmove _ hsame hok hs
    have hcancels : a = .cancels → cancels = true := by
      rintro rfl
      exact hmove
    obtain ⟨hsame', hok'⟩ := step_ok hsame hok hcancels hs
    exact ⟨hsame', hok', trivial⟩
  · intro _ _ _ _ _ hok
    exact hok

/-- Over every run of calls each tier keeps its URLs; each call goes through the tiers one by one, in
each of them from the head that it found; and a URL that succeeds is put at the head of its tier. -/
theorem tiers_kept (session : Session) (c : Config Session Call)
    (h : Reach program (Moves true) ⟨session, []⟩ c) :
    SameTiers session.tiers c.shared ∧ (∀ call ∈ c.procs, InOrder session.tiers call) ∧
      ∀ i response c', apply program c (.act i (.answers (.ok response))) = some c' →
        ∃ call url tier, c.procs[i]? = some call ∧ call.point = .asking url ∧
          c'.shared.tiers[call.past.length]? = some tier ∧ tier.head? = some url := by
  obtain ⟨hsame, hcalls⟩ := calls_ok h
  refine ⟨hsame, fun call hmem => (hcalls call hmem).order, fun i response c' happ => ?_⟩
  obtain ⟨call, s, call', hcall, hs, rfl⟩ := apply_act happ
  simp only [program] at hs
  split at hs
  · next url v hpoint hv =>
    have hok := hcalls call (List.mem_of_getElem? hcall)
    obtain ⟨tier, tier₀, htier₀, -, hhead, heq⟩ :=
      answer_promotes response hsame hok hv hpoint
    cases heq.symm.trans (Option.some.inj hs)
    refine ⟨call, url, tier, hcall, hpoint, ?_, hhead⟩
    obtain ⟨old, hold, -⟩ := forall₂_getElem? hsame htier₀
    obtain ⟨hlt, -⟩ := List.getElem?_eq_some_iff.mp hold
    exact List.getElem?_set_self hlt
  · cases hs

def reversing : Shuffle := ⟨List.reverse, List.reverse_perm⟩

/-- The first URL of a tier does not answer, the last one does. -/
def fallBack (response : AnnounceResponse) : List (Move Call Action) :=
  [.spawn (newCall [] 0), .act 0 (.proceeds fun _ => reversing),
    .act 0 (.proceeds fun _ => reversing), .act 0 (.answers (.error .os)),
    .act 0 (.proceeds fun _ => reversing), .act 0 (.proceeds fun _ => reversing),
    .act 0 (.answers (.ok response))]

theorem fallBack_moves (cancels : Bool) (response : AnnounceResponse) (start : Config Session Call) :
    Allowed program (Moves cancels) start (fallBack response) := by
  apply allowed_of_forall
  intro m hm c
  simp only [fallBack, List.mem_cons, List.not_mem_nil, or_false] at hm
  rcases hm with rfl | rfl | rfl | rfl | rfl | rfl | rfl
  · rfl
  all_goals trivial

def newSession (tiers : List (List Url)) : Session := ⟨tiers, [], [], 6881, 0, 0, 0, 0, []⟩

theorem tiers_kept_promoting :
    ∃ c, run program ⟨newSession [[[1], [2], [3]], [[4]]], []⟩ (fallBack ⟨1800, [], 0, 0⟩) = some c ∧
      c.shared.tiers = [[[3], [1], [2]], [[4]]] ∧
      SameTiers [[[1], [2], [3]], [[4]]] c.shared := by
  obtain ⟨c, hrun, htiers⟩ : ∃ c, run program ⟨newSession [[[1], [2], [3]], [[4]]], []⟩
      (fallBack ⟨1800, [], 0, 0⟩) = some c ∧ c.shared.tiers = [[[3], [1], [2]], [[4]]] :=
    ⟨_, rfl, rfl⟩
  exact ⟨c, hrun, htiers, (tiers_kept _ c (reach_run (fallBack_moves true _ _) hrun)).1⟩

end TrackerTiers
