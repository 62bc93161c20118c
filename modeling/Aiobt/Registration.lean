import Aiobt.PieceEngine
import Aiobt.InterleavedProcesses

/-! # Registering a torrent

`Client._register` and the `add_torrent` calls that end in it. It looks for the info hash before it
opens the storage, and stores the new session after that. -/
namespace Registration

open ByteStrings InterleavedProcesses
open PieceEngine (TorrentState)

structure Client where
  running : Bool
  sessions : Bytes → Option ℕ
  states : ℕ → TorrentState
  created : ℕ
  /-- The info hashes that are announced on the local network. -/
  lsd : Option (Finset Bytes)
  added : List (Bytes × ℕ)

/-- Which method of the storage backend lays out the torrent. -/
inductive Preparation where
  | prepareFiles
  | prepare
  | neither
  deriving DecidableEq, Repr

inductive Point where
  /-- Nothing is awaited before the info hash is known. -/
  | starting
  | opening (session : ℕ)
  | preparing (session : ℕ)
  | emitting (session : ℕ)
  | resuming (session : ℕ)
  | returned (session : ℕ)
  | raised
  deriving DecidableEq, Repr

structure Call where
  infoHash : Bytes
  start : Bool
  point : Point
  deriving DecidableEq, Repr

def Call.goto (p : Call) (point : Point) : Call := { p with point := point }

inductive Proc where
  | call (p : Call)
  /-- Whatever starts, stops and checks the sessions. -/
  | control
  deriving DecidableEq

inductive Action where
  | proceeds
  /-- The torrent cannot be parsed, or what the call awaits raises, or the call is cancelled. -/
  | fails
  | becomes (session : ℕ) (state : TorrentState)

def Client.getHandle (s : Client) (infoHash : Bytes) : Option ℕ := s.sessions infoHash

/-- What follows the preparation of the storage, up to the next await. -/
def store (s : Client) (p : Call) (session : ℕ) : Client × Call :=
  ({ s with
      sessions := Function.update s.sessions p.infoHash (some session)
      lsd := s.lsd.map (insert p.infoHash)
      added := s.added ++ [(p.infoHash, session)] }, p.goto (.emitting session))

def create (s : Client) : Client :=
  { s with
    states := Function.update s.states s.created .stopped
    created := s.created + 1 }

def proceed (prep : Preparation) (s : Client) (p : Call) : Option (Client × Call) :=
  match p.point with
  | .starting =>
    if s.running then
      match s.sessions p.infoHash with
      | some existing =>
        if p.start ∧ s.states existing = .stopped then some (s, p.goto (.resuming existing))
        else some (s, p.goto (.returned existing))
      | none => some (create s, p.goto (.opening s.created))
    else some (s, p.goto .raised)
  | .opening session =>
    match prep with
    | .neither => some (store s p session)
    | _ => some (s, p.goto (.preparing session))
  | .preparing session => some (store s p session)
  | .emitting session =>
    if p.start then some (s, p.goto (.resuming session)) else some (s, p.goto (.returned session))
  | .resuming session => some (s, p.goto (.returned session))
  | .returned _ => none
  | .raised => none

def fail (s : Client) (p : Call) : Option (Client × Call) :=
  match p.point with
  | .returned _ => none
  | .raised => none
  | _ => some (s, p.goto .raised)

def program (prep : Preparation) : Program Client Proc Action
  | .proceeds, s, .call p => (proceed prep s p).map fun next => (next.1, .call next.2)
  | .fails, s, .call p => (fail s p).map fun next => (next.1, .call next.2)
  | .becomes session state, s, .control =>
    some ({ s with states := Function.update s.states session state }, .control)
  | _, _, _ => none

def initial (lsd : Option (Finset Bytes)) : Config Client Proc :=
  ⟨⟨true, fun _ => none, fun _ => .stopped, 0, lsd, []⟩, []⟩

def Begins : Move Proc Action → Prop
  | .spawn (.call p) => p.point = .starting
  | .spawn .control => True
  | .act _ _ => True

def stores (prep : Preparation) : Point → Bool
  | .opening _ => decide (prep = .neither)
  | .preparing _ => true
  | _ => false

def Alone (prep : Preparation) (c : Config Client Proc) : Move Proc Action → Prop
  | .act i .proceeds => ∀ p, c.procs[i]? = some (.call p) → stores prep p.point = true →
      c.shared.sessions p.infoHash = none
  | m => Begins m

instance : (m : Move Proc Action) → Decidable (Begins m)
  | .spawn (.call p) => inferInstanceAs (Decidable (p.point = .starting))
  | .spawn .control => .isTrue trivial
  | .act _ _ => .isTrue trivial

instance (prep : Preparation) (c : Config Client Proc) :
    (m : Move Proc Action) → Decidable (Alone prep c m)
  | .spawn p => inferInstanceAs (Decidable (Begins (.spawn p)))
  | .act _ .fails => .isTrue trivial
  | .act _ (.becomes _ _) => .isTrue trivial
  | .act i .proceeds =>
    match h : c.procs[i]? with
    | some (.call p) =>
      decidable_of_iff (stores prep p.point = true → c.shared.sessions p.infoHash = none)
        ⟨fun hok q hq => by
          obtain rfl := Proc.call.inj (Option.some.inj (h.symm.trans hq))
          exact hok, fun hok => hok p h⟩
    | some .control => .isTrue fun q hq => by cases h.symm.trans hq
    | none => .isTrue fun q hq => by cases h.symm.trans hq

/-- All handles that were returned for a torrent are of the session that is registered for it, and
`TORRENT_ADDED` was emitted once, for that session. -/
structure Unique (c : Config Client Proc) : Prop where
  handles : ∀ p session, .call p ∈ c.procs → p.point = .returned session →
    c.shared.getHandle p.infoHash = some session
  added : ∀ infoHash session, c.shared.getHandle infoHash = some session →
    c.shared.added.filter (fun e => e.1 = infoHash) = [(infoHash, session)]

def Call.session? (p : Call) : Option ℕ :=
  match p.point with
  | .emitting session => some session
  | .resuming session => some session
  | .returned session => some session
  | _ => none

variable {prep : Preparation} {a : Action} {s s' : Client} {p p' : Proc}

/-- A step that stores nothing; a call comes to hold what is registered for its torrent. -/
structure Looks (s : Client) (p : Proc) (s' : Client) (p' : Proc) : Prop where
  sessions : s'.sessions = s.sessions
  added : s'.added = s.added
  holds : ∀ q' session, p' = .call q' → q'.session? = some session →
    (∃ q, p = .call q ∧ q.infoHash = q'.infoHash ∧ q.session? = some session) ∨
      s.sessions q'.infoHash = some session

theorem proceed_of_stores {q : Call} (h : stores prep q.point = true) :
    ∃ session, proceed prep s q = some (store s q session) := by
  cases hq : q.point with
  | opening session =>
    rw [hq] at h
    obtain rfl : prep = .neither := of_decide_eq_true h
    exact ⟨session, by rw [proceed, hq]⟩
  | preparing session => exact ⟨session, by rw [proceed, hq]⟩
  | _ => simp [stores, hq] at h

/-- A call that stores nothing leaves the sessions alone, and comes to hold what is registered. -/
theorem proceed_of_not_stores {q q' : Call} (hnot : stores prep q.point = false)
    (h : proceed prep s q = some (s', q')) :
    s'.sessions = s.sessions ∧ s'.added = s.added ∧ q'.infoHash = q.infoHash ∧
      ∀ session, q'.session? = some session → q.session? = some session ∨
        s.sessions q.infoHash = some session := by
  unfold proceed at h
  cases hq : q.point with
  | starting =>
    simp only [hq] at h
    split at h
    · split at h
      · next existing hfound =>
        split at h
        · cases h
          exact ⟨rfl, rfl, rfl, fun session hheld => Or.inr (hfound.trans hheld)⟩
        · cases h
          exact ⟨rfl, rfl, rfl, fun session hheld => Or.inr (hfound.trans hheld)⟩
      · cases h
        exact ⟨rfl, rfl, rfl, nofun⟩
    · cases h
      exact ⟨rfl, rfl, rfl, nofun⟩
  | opening session =>
    simp only [hq] at h
    split at h
    · rw [hq] at hnot
      cases hnot
    · cases h
      exact ⟨rfl, rfl, rfl, nofun⟩
  | preparing session =>
    rw [hq] at hnot
    cases hnot
  | emitting session =>
    have hholds : q.session? = some session := by rw [Call.session?, hq]
    simp only [hq] at h
    split at h
    · cases h
      exact ⟨rfl, rfl, rfl, fun other hheld => Or.inl (hholds.trans hheld)⟩
    · cases h
      exact ⟨rfl, rfl, rfl, fun other hheld => Or.inl (hholds.trans hheld)⟩
  | resuming session =>
    have hholds : q.session? = some session := by rw [Call.session?, hq]
    simp only [hq] at h
    cases h
    exact ⟨rfl, rfl, rfl, fun other hheld => Or.inl (hholds.trans hheld)⟩
  | returned session => simp [hq] at h
  | raised => simp [hq] at h

theorem fail_cases {q q' : Call} (h : fail s q = some (s', q')) :
    s' = s ∧ q' = q.goto .raised := by
  unfold fail at h
  split at h
  · cases h
  · cases h
  · cases h
    exact ⟨rfl, rfl⟩

theorem step_cases (h : program prep a s p = some (s', p')) :
    Looks s p s' p' ∨ ∃ q session, a = .proceeds ∧ p = .call q ∧ stores prep q.point = true ∧
      s' = (store s q session).1 ∧ p' = .call (store s q session).2 := by
  unfold program at h
  split at h
  · next q =>
    obtain ⟨⟨s₁, q₁⟩, hstep, heq⟩ := Option.map_eq_some_iff.mp h
    obtain ⟨rfl, rfl⟩ := Prod.mk.inj heq
    cases hstores : stores prep q.point with
    | true =>
      obtain ⟨session, hstore⟩ := proceed_of_stores (s := s) hstores
      have hnext := Option.some.inj (hstep.symm.trans hstore)
      refine Or.inr ⟨q, session, rfl, rfl, hstores, congrArg Prod.fst hnext, ?_⟩
      exact congrArg (fun next => Proc.call next.2) hnext
    | false =>
      obtain ⟨hsessions, hadded, hsame, hheld⟩ := proceed_of_not_stores hstores hstep
      refine Or.inl ⟨hsessions, hadded, ?_⟩
      intro q' session hq' hholds
      obtain rfl := Proc.call.inj hq'
      rcases hheld session hholds with hbefore | hfound
      · exact Or.inl ⟨q, rfl, hsame.symm, hbefore⟩
      · rw [hsame]
        exact Or.inr hfound
  · next q =>
    obtain ⟨⟨s₁, q₁⟩, hstep, heq⟩ := Option.map_eq_some_iff.mp h
    obtain ⟨rfl, rfl⟩ := Prod.mk.inj heq
    obtain ⟨rfl, rfl⟩ := fail_cases hstep
    refine Or.inl ⟨rfl, rfl, ?_⟩
    rintro q' session hq' hholds
    obtain rfl := Proc.call.inj hq'
    cases hholds
  · cases h
    exact Or.inl ⟨rfl, rfl, nofun⟩
  · cases h

def Announced (s : Client) : Prop :=
  ∀ infoHash, s.added.filter (fun e => e.1 = infoHash) =
    ((s.sessions infoHash).map fun session => (infoHash, session)).toList

def Holds (s : Client) (p : Proc) : Prop :=
  ∀ q session, p = .call q → q.session? = some session → s.sessions q.infoHash = some session

theorem Announced.store (h : Announced s) {q : Call} {session : ℕ}
    (hnone : s.sessions q.infoHash = none) : Announced (store s q session).1 := by
  intro infoHash
  have hbefore := h infoHash
  simp only [Registration.store, List.filter_append]
  by_cases heq : infoHash = q.infoHash
  · subst heq
    rw [hnone] at hbefore
    simp [hbefore]
  · rw [Function.update_of_ne heq, hbefore]
    simp [Ne.symm heq]

theorem alone_registered {lsd : Option (Finset Bytes)} {c : Config Client Proc}
    (h : Reach (program prep) (Alone prep) (initial lsd) c) :
    Announced c.shared ∧ ∀ p ∈ c.procs, Holds c.shared p := by
  refine h.rely_guarantee (G := Announced) (L := Holds)
    (R := fun s s' => ∀ infoHash session, s.sessions infoHash = some session →
      s'.sessions infoHash = some session) ?_ ?_ ?_ ?_ ?_
  · exact fun _ => rfl
  · intro p hp
    exact absurd hp List.not_mem_nil
  · rintro c p - hbegins q session rfl hheld
    have hpoint : q.point = .starting := hbegins
    simp [Call.session?, hpoint] at hheld
  · intro c i a p s p' hok hp hannounced hholds hs
    rcases step_cases hs with hlooks | ⟨q, session, rfl, rfl, hstores, rfl, rfl⟩
    · refine ⟨?_, ?_, ?_⟩
      · intro infoHash
        rw [hlooks.added, hlooks.sessions]
        exact hannounced infoHash
      · intro q' session hp' hheld
        rw [hlooks.sessions]
        rcases hlooks.holds q' session hp' hheld with ⟨q, rfl, hsame, hheld⟩ | hfound
        · rw [← hsame]
          exact hholds q session rfl hheld
        · exact hfound
      · rw [hlooks.sessions]
        intro _ _ hfound
        exact hfound
    · have hnone : c.shared.sessions q.infoHash = none := hok q hp hstores
      refine ⟨hannounced.store hnone, ?_, ?_⟩
      · rintro q' other heq hheld
        obtain rfl := Proc.call.inj heq
        obtain rfl : session = other := by simpa [store, Call.session?, Call.goto] using hheld
        simp [store, Call.goto]
      · intro infoHash other hfound
        have hne : infoHash ≠ q.infoHash := by
          rintro rfl
          cases hnone.symm.trans hfound
        simp only [store, Function.update_of_ne hne]
        exact hfound
  · intro s s' q _ hkept hheld r session heq hsession
    exact hkept _ _ (hheld r session heq hsession)

theorem alone_unique {lsd : Option (Finset Bytes)} {c : Config Client Proc}
    (h : Reach (program prep) (Alone prep) (initial lsd) c) : Unique c := by
  obtain ⟨hannounced, hholds⟩ := alone_registered h
  constructor
  · intro p session hmem hpoint
    exact hholds _ hmem p session rfl (by rw [Call.session?, hpoint])
  · intro infoHash session hfound
    have hall := hannounced infoHash
    rw [show c.shared.sessions infoHash = some session from hfound] at hall
    exact hall

/-- A session that is stored over another one is announced a second time. -/
theorem alone_of_unique {m : Move Proc Action} {c c' : Config Client Proc} (hbegins : Begins m)
    (h : Unique c) (happ : apply (program prep) c m = some c') (h' : Unique c') : Alone prep c m := by
  cases m with
  | spawn p => exact hbegins
  | act i a =>
    cases a with
    | fails => trivial
    | becomes session state => trivial
    | proceeds =>
      intro q hq hstores
      obtain ⟨p, s, p', hp, hs, rfl⟩ := apply_act happ
      obtain rfl := Option.some.inj (hp.symm.trans hq)
      obtain ⟨session, hstore⟩ := proceed_of_stores (s := c.shared) hstores
      obtain rfl : (store c.shared q session).1 = s := by
        simp only [program, hstore, Option.map_some] at hs
        exact congrArg Prod.fst (Option.some.inj hs)
      by_contra hsome
      obtain ⟨existing, hexisting⟩ := Option.ne_none_iff_exists'.mp hsome
      have honce := h.added q.infoHash existing hexisting
      have htwice := h'.added q.infoHash session (Function.update_self ..)
      simp [store, honce] at htwice

/-- In a run of calls, the handles of each torrent are of one session, announced once, if and only
if no call stores its session after another one for the same torrent was stored. -/
theorem registered_once (prep : Preparation) (lsd : Option (Finset Bytes))
    (moves : List (Move Proc Action)) (c : Config Client Proc) (hbegins : ∀ m ∈ moves, Begins m)
    (hrun : run (program prep) (initial lsd) moves = some c) :
    Throughout (program prep) Unique (initial lsd) moves ↔
      Allowed (program prep) (Alone prep) (initial lsd) moves :=
  throughout_iff_allowed (fun _ => alone_unique)
    (fun _ m _ hm hunique happ hunique' => alone_of_unique (hbegins m hm) hunique happ hunique')
    .refl hrun

/-- Two calls for one torrent, over a backend that has `prepare_files`. -/
def addTwice : List (Move Proc Action) :=
  [.spawn (.call ⟨[7], false, .starting⟩), .spawn (.call ⟨[7], false, .starting⟩)]

/-- The second call begins when the first has returned. -/
theorem registered_in_turn :
    ∃ c, run (program .prepareFiles) (initial none) (addTwice ++ [.act 0 .proceeds, .act 0 .proceeds,
        .act 0 .proceeds, .act 0 .proceeds, .act 1 .proceeds]) = some c ∧
      c.procs = [.call ⟨[7], false, .returned 0⟩, .call ⟨[7], false, .returned 0⟩] ∧
      Throughout (program .prepareFiles) Unique (initial none) (addTwice ++ [.act 0 .proceeds,
        .act 0 .proceeds, .act 0 .proceeds, .act 0 .proceeds, .act 1 .proceeds]) := by
  refine ⟨_, rfl, rfl, (registered_once .prepareFiles none _ _ (by decide) rfl).mpr ?_⟩
  decide

/-- Both calls look for the torrent before either has stored its session. -/
theorem registered_twice :
    ∃ c, run (program .prepareFiles) (initial none) (addTwice ++ [.act 0 .proceeds, .act 1 .proceeds,
        .act 0 .proceeds, .act 1 .proceeds, .act 0 .proceeds, .act 1 .proceeds,
        .act 0 .proceeds, .act 1 .proceeds]) = some c ∧
      c.procs = [.call ⟨[7], false, .returned 0⟩, .call ⟨[7], false, .returned 1⟩] ∧
      c.shared.getHandle [7] = some 1 ∧ c.shared.added = [([7], 0), ([7], 1)] ∧ ¬ Unique c := by
  refine ⟨_, rfl, rfl, rfl, rfl, fun hunique => ?_⟩
  have hhandle := hunique.handles ⟨[7], false, .returned 0⟩ 0 List.mem_cons_self rfl
  cases hhandle

end Registration
