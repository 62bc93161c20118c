import Aiobt.EventEmitter
import Mathlib.Data.Multiset.AddSub

/-! # Registrations on one emitter

One call after the other on an emitter without a parent, beside a multiset of registrations for
each event. -/
namespace EventRegistrations

open InterleavedProcesses EventEmitter

variable {κ E : Type} [DecidableEq κ]

/-- `emit` is given how the calls of the listeners end. -/
inductive Op (κ E : Type) where
  | change (change : Change κ)
  | emit (event : EventType) (suppressErrors : Bool) (calls : ℕ → Option E)

/-- The configuration behind the first step of an `emit` call. -/
def entered (em : Emitter κ) (event : EventType) (suppressErrors : Bool) (calls : ℕ → Option E) :
    Config (ℕ → Emitter κ) (Proc κ E) :=
  ⟨fun _ => em, [.emission (visit (fun _ => em) calls (.new event suppressErrors [0]) [0])]⟩

/-- Nothing but the emission and its tasks takes a step. -/
def Undisturbed (_ : Config (ℕ → Emitter κ) (Proc κ E)) (m : Move (Proc κ E) (Action κ E)) : Prop :=
  ∃ a, m = .act 0 a

/-- A whole emission that starts these callbacks and leaves this emitter. -/
inductive Emits (em : Emitter κ) (event : EventType) (suppressErrors : Bool)
    (calls : ℕ → Option E) : Emitter κ → List κ → Prop
  | intro {es p} : Reach program Undisturbed (entered em event suppressErrors calls)
      ⟨es, [.emission p]⟩ → p.Ended →
      Emits em event suppressErrors calls (es 0) (p.starts.map fun s => s.2.target)

/-- An operation that starts these callbacks and leaves this emitter. -/
inductive Step (em : Emitter κ) : Op κ E → Emitter κ → List κ → Prop
  | change (change : Change κ) : Step em (.change change) (em.change change) []
  | emit {event suppressErrors calls em' started} :
      Emits em event suppressErrors calls em' started →
      Step em (.emit event suppressErrors calls) em' started

inductive Run : Emitter κ → List (Op κ E × Emitter κ × List κ) → Prop
  | nil {em} : Run em []
  | cons {em op em' started rest} : Step em op em' started → Run em' rest →
      Run em ((op, em', started) :: rest)

structure Registrations (κ : Type) where
  permanent : EventType → Multiset κ
  once : EventType → Multiset κ

namespace Registrations

def none : Registrations κ := ⟨fun _ => 0, fun _ => 0⟩

def all (r : Registrations κ) (event : EventType) : Multiset κ := r.permanent event + r.once event

def put (r : Registrations κ) (event : EventType) (permanent once : Multiset κ) : Registrations κ :=
  ⟨Function.update r.permanent event permanent, Function.update r.once event once⟩

/-- An operation that calls these callbacks. Where a callback was registered in both ways, `off` may
remove either registration. -/
inductive Step (r : Registrations κ) : Op κ E → Registrations κ → Multiset κ → Prop
  | on (event f) : Step r (.change (.on event f))
      (r.put event (f ::ₘ r.permanent event) (r.once event)) 0
  | once (event f) : Step r (.change (.once event f))
      (r.put event (r.permanent event) (f ::ₘ r.once event)) 0
  | offPermanent {event f} : f ∈ r.permanent event → Step r (.change (.off event f))
      (r.put event ((r.permanent event).erase f) (r.once event)) 0
  | offOnce {event f} : f ∈ r.once event → Step r (.change (.off event f))
      (r.put event (r.permanent event) ((r.once event).erase f)) 0
  | offNone {event f} : f ∉ r.all event → Step r (.change (.off event f)) r 0
  | clearAll : Step r (.change (.clear Option.none)) none 0
  | clear (event) : Step r (.change (.clear (some event))) (r.put event 0 0) 0
  | emit (event suppressErrors calls) : Step r (.emit event suppressErrors calls)
      (r.put event (r.permanent event) 0) (r.all event)

end Registrations

/-- The registrations can take the same steps: each callback is started as often as they say, and
`listener_count` is their number. -/
inductive Refines : Registrations κ → List (Op κ E × Emitter κ × List κ) → Prop
  | nil {r} : Refines r []
  | cons {r op em r' started rest} : r.Step op r' started →
      (∀ event, em.listenerCount event = (r'.all event).card) → Refines r' rest →
      Refines r ((op, em, started) :: rest)

/-- `off` is given a callback that `on` has registered, or one that is not registered, and the call
of a listener that raises is the only one of its emission. -/
def Plain (em : Emitter κ) : Op κ E → Prop
  | .change (.off event f) => .callback f ∈ em.listeners event ∨
      ∀ x ∈ em.listeners event, x.target ≠ f
  | .change _ => True
  | .emit event _ calls => (callAll calls 0 (em.listeners event)).2 = none ∨
      (em.listeners event).length = 1

def AllPlain : Emitter κ → List (Op κ E × Emitter κ × List κ) → Prop
  | _, [] => True
  | em, (op, em', _) :: rest => Plain em op ∧ AllPlain em' rest

def tasks (P : Child κ E → Bool) (x : Listener κ) (children : List (Child κ E)) : ℕ :=
  children.countP fun c => decide (c.listener = x) && P c

def Child.started (c : Child κ E) : Bool := !c.status.isScheduled

def Child.stays (c : Child κ E) : Bool := !c.listener.isWrapper || c.status.isScheduled

inductive Awaits (em : Emitter κ) (event : EventType) (es : ℕ → Emitter κ) (p : Emission κ E) : Prop
  | gathering (children : List (Child κ E)) : p.point = .gathering 0 children →
      children.map Child.listener = em.listeners event →
      (∀ x, (p.starts.map Prod.snd).count x = tasks Child.started x children) →
      (∀ x, ((es 0).listeners event).count x = tasks Child.stays x children) →
      Awaits em event es p
  | ended : p.Ended → (p.starts.map Prod.snd).Perm (em.listeners event) →
      ((es 0).listeners event).Perm ((em.listeners event).filter fun x => !x.isWrapper) →
      Awaits em event es p

structure Emitting (em : Emitter κ) (event : EventType) (es : ℕ → Emitter κ) (p : Emission κ E) :
    Prop where
  awaits : Awaits em event es p
  others : ∀ e, e ≠ event → (es 0).listeners e = em.listeners e
  own : p.event = event
  ahead : p.ahead = []

variable {em em' : Emitter κ} {event : EventType} {es : ℕ → Emitter κ} {p p' : Emission κ E}
  {suppressErrors : Bool} {calls : ℕ → Option E} {started : List κ} {children : List (Child κ E)}

theorem tasks_set {P : Child κ E → Bool} {k : ℕ} {x y : Listener κ} {s t : Status E}
    (h : children[k]? = some ⟨y, s⟩) :
    tasks P x (children.set k ⟨y, t⟩) + (if y = x ∧ P ⟨y, s⟩ then 1 else 0) =
      tasks P x children + (if y = x ∧ P ⟨y, t⟩ then 1 else 0) := by
  have hset := countP_set_add (P := fun c => decide (c.listener = x) && P c) ⟨y, t⟩ h
  simpa [tasks] using hset

theorem tasks_scheduled {P : Child κ E → Bool} {x : Listener κ} {l : List (Listener κ)} :
    tasks P x (l.map Child.scheduled) =
      l.countP fun y => decide (y = x) && P (Child.scheduled y) := by
  rw [tasks, List.countP_map]
  rfl

theorem tasks_of_forall {P : Child κ E → Bool} {Q : Listener κ → Bool} (x : Listener κ)
    (h : ∀ c ∈ children, P c = Q c.listener) :
    tasks P x children = ((children.map Child.listener).filter Q).count x := by
  rw [List.count, List.countP_filter, List.countP_map, tasks]
  apply List.countP_congr
  intro c hc
  simp [h c hc]

@[simp] theorem enter_callback {f : κ} : Listener.enter em (.callback f) = em := rfl

@[simp] theorem enter_wrapper {id : ℕ} {e : EventType} {f : κ} :
    Listener.enter em (.wrapper id e f) = em.off e (.wrapper id e f) := rfl

/-- A task that starts takes its wrapper off the list. -/
theorem count_enter {x y : Listener κ} (hmem : x ∈ em.listeners event) :
    ((x.enter em).listeners event).count y =
      (em.listeners event).count y - if x.isWrapper ∧ x = y then 1 else 0 := by
  cases x with
  | callback f => simp [Listener.isWrapper]
  | wrapper id e f =>
    obtain ⟨rfl, -⟩ := em.own event id e f hmem
    simp [List.count_erase, Listener.isWrapper, beq_iff_eq]

theorem enter_other {x : Listener κ} {e : EventType} (hmem : x ∈ em.listeners event)
    (he : e ≠ event) : (x.enter em).listeners e = em.listeners e := by
  cases x with
  | callback f => rfl
  | wrapper id e' f =>
    obtain ⟨rfl, -⟩ := em.own event id e' f hmem
    simp [Emitter.put_other he]

theorem tasks_pos {P : Child κ E → Bool} {k : ℕ} {x : Listener κ} {t : Status E}
    (h : children[k]? = some ⟨x, t⟩) (hP : P ⟨x, t⟩ = true) : 0 < tasks P x children :=
  List.countP_pos_iff.mpr ⟨_, List.mem_of_getElem? h, by simp [hP]⟩

theorem Awaits.not_starting (h : Awaits em event es p) : p.point ≠ .starting := by
  intro hpoint
  cases h with
  | gathering _ h _ _ _ =>
    rw [hpoint] at h
    cases h
  | ended h _ _ =>
    rcases h with h | ⟨error, l, h⟩
    · rw [hpoint] at h
      cases h
    · rw [hpoint] at h
      cases h

theorem Awaits.emitter {i : ℕ} (h : Awaits em event es p) (hpoint : p.point = .gathering i children) :
    i = 0 := by
  cases h with
  | gathering _ h _ _ _ => exact (Point.gathering.inj (hpoint.symm.trans h)).1
  | ended h _ _ => exact absurd hpoint h.not_gathering

theorem Awaits.of_gathering (h : Awaits em event es p) (hpoint : p.point = .gathering 0 children) :
    children.map Child.listener = em.listeners event ∧
      (∀ x, (p.starts.map Prod.snd).count x = tasks Child.started x children) ∧
      ∀ x, ((es 0).listeners event).count x = tasks Child.stays x children := by
  cases h with
  | gathering children' h hlisteners hstarts hstays =>
    obtain ⟨-, rfl⟩ := Point.gathering.inj (hpoint.symm.trans h)
    exact ⟨hlisteners, hstarts, hstays⟩
  | ended h _ _ => exact absurd hpoint h.not_gathering

theorem Emitting.start {k : ℕ} {x : Listener κ}
    (hpoint : p.point = .gathering 0 children) (hchild : children[k]? = some ⟨x, .scheduled⟩)
    (h : Emitting em event es p) :
    Emitting em event (Function.update es 0 (x.enter (es 0)))
      { p with
        starts := p.starts ++ [(0, x)]
        point := .gathering 0 (children.set k ⟨x, .running⟩) } := by
  obtain ⟨hawaits, hothers, hown, hahead⟩ := h
  obtain ⟨hlisteners, hstarts, hstays⟩ := hawaits.of_gathering hpoint
  have hmem : x ∈ (es 0).listeners event := by
    apply List.count_pos_iff.mp
    rw [hstays]
    exact tasks_pos hchild (by simp [Child.stays])
  refine ⟨.gathering _ rfl ((listeners_set hchild).trans hlisteners) ?_ ?_, ?_, hown, hahead⟩
  · intro y
    have hset := tasks_set (P := Child.started) (x := y) (t := .running) hchild
    have hold := hstarts y
    by_cases hxy : x = y
    · simp [hxy, Child.started] at hset hold ⊢
      omega
    · simp [hxy] at hset hold ⊢
      omega
  · intro y
    have hset := tasks_set (P := Child.stays) (x := y) (t := .running) hchild
    have hold := hstays y
    rw [Function.update_self, count_enter hmem]
    by_cases hxy : x = y
    · subst hxy
      cases hwrapper : x.isWrapper <;>
        simp [hwrapper, Child.stays] at hset hold ⊢ <;> omega
    · simp [hxy] at hset hold ⊢
      omega
  · intro e he
    rw [Function.update_self, enter_other hmem he]
    exact hothers e he

theorem Emitting.finish {k : ℕ} {x : Listener κ} {outcome : Option E}
    (hpoint : p.point = .gathering 0 children) (hchild : children[k]? = some ⟨x, .running⟩)
    (h : Emitting em event es p) :
    Emitting em event es { p with point := .gathering 0 (children.set k ⟨x, .done outcome⟩) } := by
  obtain ⟨hawaits, hothers, hown, hahead⟩ := h
  obtain ⟨hlisteners, hstarts, hstays⟩ := hawaits.of_gathering hpoint
  refine ⟨.gathering _ rfl ((listeners_set hchild).trans hlisteners) ?_ ?_, hothers, hown, hahead⟩
  · intro y
    have hset := tasks_set (P := Child.started) (x := y) (t := .done outcome) hchild
    simp [Child.started] at hset
    rw [hstarts y, hset]
  · intro y
    have hset := tasks_set (P := Child.stays) (x := y) (t := .done outcome) hchild
    simp [Child.stays] at hset
    rw [hstays y, hset]

theorem Emitting.collect (hpoint : p.point = .gathering 0 children)
    (hdone : ∀ c ∈ children, c.status.isDone = true) (h : Emitting em event es p) :
    Emitting em event es (EventEmitter.collect es calls p 0 children) := by
  obtain ⟨hawaits, hothers, hown, hahead⟩ := h
  obtain ⟨hlisteners, hstarts, hstays⟩ := hawaits.of_gathering hpoint
  have hnot : ∀ c ∈ children, c.status.isScheduled = false :=
    fun c hc => Status.not_scheduled (hdone c hc)
  have hall : (p.starts.map Prod.snd).Perm (em.listeners event) := by
    apply List.perm_iff_count.mpr
    intro x
    rw [hstarts, tasks_of_forall (Q := fun _ => true) x, hlisteners, List.filter_true]
    intro c hc
    simp [Child.started, hnot c hc]
  have hkept : ((es 0).listeners event).Perm ((em.listeners event).filter fun x => !x.isWrapper) := by
    apply List.perm_iff_count.mpr
    intro x
    rw [hstays, tasks_of_forall (Q := fun x => !x.isWrapper) x, hlisteners]
    intro c hc
    simp [Child.stays, hnot c hc]
  unfold EventEmitter.collect
  split
  · exact ⟨.ended (Or.inr ⟨_, _, rfl⟩) hall hkept, hothers, hown, hahead⟩
  · rw [hahead]
    exact ⟨.ended (Or.inl rfl) hall hkept, hothers, hown, rfl⟩

theorem Emitting.step {a : Action κ E} {es' : ℕ → Emitter κ} {q : Proc κ E}
    (h : Emitting em event es p) (hstep : program a es (.emission p) = some (es', q)) :
    ∃ p', q = .emission p' ∧ Emitting em event es' p' := by
  rcases step_cases hstep with ⟨_, _, hreg, _⟩ | ⟨p₁, p', hp, rfl, hcases⟩
  · cases hreg
  · cases hp
    refine ⟨p', rfl, ?_⟩
    rcases hcases with ⟨calls, -, rfl, hproceed⟩ | ⟨i, children, k, x, hpoint, hchild, rfl, rfl⟩ |
      ⟨i, children, k, x, outcome, hpoint, hchild, rfl, rfl⟩
    · rcases proceed_cases hproceed with ⟨hpoint, -⟩ | ⟨i, children, hpoint, hdone, rfl⟩
      · exact absurd hpoint h.awaits.not_starting
      · obtain rfl := h.awaits.emitter hpoint
        exact h.collect hpoint hdone
    · obtain rfl := h.awaits.emitter hpoint
      exact h.start hpoint hchild
    · obtain rfl := h.awaits.emitter hpoint
      exact h.finish hpoint hchild

theorem reach_emitting {start c : Config (ℕ → Emitter κ) (Proc κ E)}
    (hstart : start.procs = [.emission p]) (h : Emitting em event start.shared p)
    (hreach : Reach program Undisturbed start c) :
    ∃ p', c.procs = [.emission p'] ∧ Emitting em event c.shared p' := by
  refine hreach.invariant
    (I := fun c => ∃ p', c.procs = [.emission p'] ∧ Emitting em event c.shared p') ⟨p, hstart, h⟩ ?_ ?_
  · rintro c q - ⟨a, ha⟩
    cases ha
  · rintro c i a q s q' ⟨p₁, hprocs, hp₁⟩ ⟨b, hb⟩ hq hstep
    cases hb
    rw [hprocs] at hq ⊢
    obtain rfl : .emission p₁ = q := by simpa using hq
    obtain ⟨p', rfl, hp'⟩ := hp₁.step hstep
    exact ⟨p', rfl, hp'⟩

theorem reach_ended {start c : Config (ℕ → Emitter κ) (Proc κ E)}
    (hstart : start.procs = [.emission p]) (h : p.Ended)
    (hreach : Reach program Undisturbed start c) : c = start := by
  refine hreach.invariant (I := fun c => c = start) rfl ?_ ?_
  · rintro c q - ⟨a, ha⟩
    cases ha
  · rintro c i a q s q' rfl ⟨b, hb⟩ hq hstep
    cases hb
    rw [hstart] at hq
    obtain rfl : .emission p = q := by simpa using hq
    rw [h.program_none] at hstep
    cases hstep

theorem emitting_entered (hsome : em.listeners event ≠ [])
    (hcalls : (callAll calls 0 (em.listeners event)).2 = none) :
    Emitting em event (fun _ => em)
      (visit (fun _ => em) calls (.new event suppressErrors [0]) [0]) := by
  have hvisit : visit (fun _ => em) calls (.new event suppressErrors [0]) [0] =
      call (fun _ => em) calls (.new event suppressErrors [0]) 0 [] :=
    if_neg (by simpa [Emission.new] using hsome)
  rw [hvisit]
  rcases call_cases (fun _ => em) calls (.new event suppressErrors [0]) 0 [] with
    ⟨-, hcall⟩ | ⟨error, before, f, after, -, hraise, -⟩
  · rw [hcall]
    refine ⟨.gathering _ rfl ?_ ?_ ?_, fun e _ => rfl, rfl, rfl⟩
    · simp [Emission.new, Function.comp_def, Child.scheduled]
    · intro x
      simp [Emission.new, tasks_scheduled, Child.started, Child.scheduled]
    · intro x
      simp [Emission.new, tasks_scheduled, Child.stays, Child.scheduled]
      rfl
  · simp [Emission.new, hcalls] at hraise

/-- Either all listeners of the event are started and its wrappers are taken off the list, or the
call of a permanent callback raises and nothing else happens. -/
theorem emits_cases (h : Emits em event suppressErrors calls em' started) :
    (∀ e, e ≠ event → em'.listeners e = em.listeners e) ∧
      (((callAll calls 0 (em.listeners event)).2 = none ∧
        started.Perm ((em.listeners event).map Listener.target) ∧
        (em'.listeners event).Perm ((em.listeners event).filter fun x => !x.isWrapper)) ∨
      ∃ error f, (callAll calls 0 (em.listeners event)).2 = some error ∧
        .callback f ∈ em.listeners event ∧ started = [f] ∧ em' = em) := by
  obtain ⟨hreach, hended⟩ := h
  by_cases hnone : em.listeners event = []
  · have hvisit : (visit (fun _ => em) calls (.new event suppressErrors [0]) [0]).starts = [] ∧
        (visit (fun _ => em) calls (.new event suppressErrors [0]) [0]).point = .returned := by
      simp [visit, Emission.new, hnone]
    have hsame := reach_ended rfl (Or.inl hvisit.2) hreach
    obtain ⟨rfl, hprocs⟩ := Config.mk.inj hsame
    obtain rfl := Proc.emission.inj (List.singleton_inj.mp hprocs)
    refine ⟨fun e _ => rfl, Or.inl ?_⟩
    simp [hvisit.1, hnone, callAll]
  cases hcalls : (callAll calls 0 (em.listeners event)).2 with
  | none =>
    obtain ⟨p', hprocs, hp'⟩ := reach_emitting rfl (emitting_entered hnone hcalls) hreach
    obtain rfl := Proc.emission.inj (List.singleton_inj.mp hprocs)
    refine ⟨hp'.others, Or.inl ⟨rfl, ?_⟩⟩
    cases hp'.awaits with
    | gathering children hpoint _ _ _ => exact absurd hpoint hended.not_gathering
    | ended _ hstarts hleft =>
      exact ⟨by simpa [Function.comp_def] using hstarts.map Listener.target, hleft⟩
  | some error =>
    have hvisit : visit (fun _ => em) calls (.new event suppressErrors [0]) [0] =
        call (fun _ => em) calls (.new event suppressErrors [0]) 0 [] :=
      if_neg (by simpa [Emission.new] using hnone)
    rcases call_cases (fun _ => em) calls (.new event suppressErrors [0]) 0 [] with
      ⟨hraise, -⟩ | ⟨e, before, f, after, hsplit, -, hcall⟩
    · simp [Emission.new, hcalls] at hraise
    · rw [hcall] at hvisit
      have hsame := reach_ended rfl (Or.inr ⟨_, _, by rw [hvisit]⟩) hreach
      obtain ⟨rfl, hprocs⟩ := Config.mk.inj hsame
      obtain rfl := Proc.emission.inj (List.singleton_inj.mp hprocs)
      refine ⟨fun e _ => rfl, Or.inr ⟨error, f, rfl, ?_, ?_, rfl⟩⟩
      · have hsplit : em.listeners event = _ := hsplit
        simp [hsplit]
      · rw [hvisit]
        rfl

def permanents (l : List (Listener κ)) : Multiset κ :=
  ((l.filter fun x => !x.isWrapper).map Listener.target : List κ)

def onces (l : List (Listener κ)) : Multiset κ :=
  ((l.filter fun x => x.isWrapper).map Listener.target : List κ)

section

omit [DecidableEq κ]

variable {l l' : List (Listener κ)} {f : κ}

theorem permanents_perm (h : l.Perm l') : permanents l = permanents l' :=
  Multiset.coe_eq_coe.mpr ((h.filter _).map _)

theorem onces_perm (h : l.Perm l') : onces l = onces l' :=
  Multiset.coe_eq_coe.mpr ((h.filter _).map _)

theorem permanents_append_callback : permanents (l ++ [.callback f]) = f ::ₘ permanents l :=
  permanents_perm (List.perm_append_singleton _ _)

theorem onces_append_callback : onces (l ++ [.callback f]) = onces l :=
  (onces_perm (List.perm_append_singleton _ _)).trans rfl

theorem permanents_append_wrapper {id : ℕ} {e : EventType} :
    permanents (l ++ [.wrapper id e f]) = permanents l :=
  (permanents_perm (List.perm_append_singleton _ _)).trans rfl

theorem onces_append_wrapper {id : ℕ} {e : EventType} :
    onces (l ++ [.wrapper id e f]) = f ::ₘ onces l :=
  onces_perm (List.perm_append_singleton _ _)

theorem permanents_add_onces (l : List (Listener κ)) :
    permanents l + onces l = (l.map Listener.target : List κ) := by
  rw [permanents, onces, Multiset.coe_add, ← List.map_append]
  apply Multiset.coe_eq_coe.mpr
  apply List.Perm.map
  simpa using List.filter_append_perm (fun x => !x.isWrapper) l

theorem mem_permanents : f ∈ permanents l ↔ .callback f ∈ l := by
  simp only [permanents, Multiset.mem_coe, List.mem_map, List.mem_filter]
  constructor
  · rintro ⟨x, ⟨hmem, hx⟩, rfl⟩
    cases x with
    | callback f => exact hmem
    | wrapper id e f => cases hx
  · intro hmem
    exact ⟨.callback f, ⟨hmem, rfl⟩, rfl⟩

end

theorem permanents_erase {l : List (Listener κ)} {f : κ} (h : .callback f ∈ l) :
    permanents (l.erase (.callback f)) = (permanents l).erase f := by
  rw [permanents_perm (List.perm_cons_erase h)]
  exact (Multiset.erase_cons_head f _).symm

theorem onces_erase {l : List (Listener κ)} {f : κ} (h : .callback f ∈ l) :
    onces (l.erase (.callback f)) = onces l :=
  (onces_perm (List.perm_cons_erase h)).symm

namespace Registrations

variable {l : List (Listener κ)} {f : κ} {r r' : Registrations κ} {P O called : Multiset κ}

section

omit [DecidableEq κ]

@[simp] theorem put_permanent : (r.put event P O).permanent event = P := Function.update_self _ _ _

@[simp] theorem put_once : (r.put event P O).once event = O := Function.update_self _ _ _

theorem put_other {e : EventType} (h : e ≠ event) :
    (r.put event P O).permanent e = r.permanent e ∧ (r.put event P O).once e = r.once e :=
  ⟨Function.update_of_ne h _ _, Function.update_of_ne h _ _⟩

theorem put_eq_self : r.put event (r.permanent event) (r.once event) = r :=
  congrArg₂ Registrations.mk (Function.update_eq_self _ _) (Function.update_eq_self _ _)

def of (em : Emitter κ) : Registrations κ :=
  ⟨fun event => permanents (em.listeners event), fun event => onces (em.listeners event)⟩

theorem of_all : (of em).all event = ((em.listeners event).map Listener.target : List κ) :=
  permanents_add_onces _

theorem card_of_all : ((of em).all event).card = em.listenerCount event := by
  rw [of_all, Multiset.coe_card, List.length_map]
  rfl

theorem mem_of_all : f ∈ (of em).all event ↔ ∃ x ∈ em.listeners event, x.target = f := by
  rw [of_all, Multiset.mem_coe, List.mem_map]

theorem of_put (h : em'.listeners = em.put event l) :
    of em' = (of em).put event (permanents l) (onces l) := by
  have hput : ∀ e, em'.listeners e = if e = event then l else em.listeners e := by
    intro e
    rw [h]
    rfl
  simp only [of, put, Registrations.mk.injEq]
  constructor
  · funext e
    rw [hput, Function.update_apply]
    split <;> rfl
  · funext e
    rw [hput, Function.update_apply]
    split <;> rfl

theorem of_on : of (em.on event f) =
    (of em).put event (f ::ₘ (of em).permanent event) ((of em).once event) := by
  rw [of_put rfl, permanents_append_callback, onces_append_callback]
  rfl

theorem of_once : of (em.once event f) =
    (of em).put event ((of em).permanent event) (f ::ₘ (of em).once event) := by
  rw [of_put rfl, permanents_append_wrapper, onces_append_wrapper]
  rfl

theorem of_clear : of (em.clear (some event)) = (of em).put event 0 0 :=
  of_put (l := []) rfl

theorem of_single (hmem : .callback f ∈ em.listeners event)
    (hlength : (em.listeners event).length = 1) :
    (of em).permanent event = {f} ∧ (of em).once event = 0 := by
  obtain ⟨x, hx⟩ := List.length_eq_one_iff.mp hlength
  rw [hx] at hmem
  obtain rfl := List.mem_singleton.mp hmem
  constructor
  · simp [of, hx, permanents, Listener.isWrapper, Listener.target]
  · simp [of, hx, onces, Listener.isWrapper]

end

theorem of_off (h : .callback f ∈ em.listeners event) : of (em.off event (.callback f)) =
    (of em).put event (((of em).permanent event).erase f) ((of em).once event) := by
  rw [of_put rfl, permanents_erase h, onces_erase h]
  rfl

theorem of_off_wrapped (h : .callback f ∉ em.listeners event) :
    of (em.off event (.callback f)) = of em := by
  rw [of_put rfl, List.erase_of_not_mem h]
  exact put_eq_self

/-- An emission calls what is registered and uses up what `once` has registered, unless the call of
a permanent callback raises. -/
theorem of_emits (h : Emits em event suppressErrors calls em' started) :
    ((callAll calls 0 (em.listeners event)).2 = Option.none ∧ (of em).all event = started ∧
      of em' = (of em).put event ((of em).permanent event) 0) ∨
    (callAll calls 0 (em.listeners event)).2 ≠ Option.none ∧
      ∃ f, .callback f ∈ em.listeners event ∧ started = [f] ∧ em' = em := by
  obtain ⟨hothers, ⟨hcalls, hstarted, hleft⟩ | ⟨error, f, hcalls, hmem, hstarted, hsame⟩⟩ :=
    emits_cases h
  · refine Or.inl ⟨hcalls, ?_, ?_⟩
    · rw [of_all]
      exact Multiset.coe_eq_coe.mpr hstarted.symm
    · have hput : em'.listeners = em.put event (em'.listeners event) := by
        funext e
        by_cases he : e = event
        · rw [he, Emitter.put_self]
        · rw [Emitter.put_other he, hothers e he]
      rw [of_put hput, permanents_perm hleft, onces_perm hleft]
      have hpermanents : permanents ((em.listeners event).filter fun x => !x.isWrapper) =
          (of em).permanent event := by
        simp [permanents, of]
      have honces : onces ((em.listeners event).filter fun x => !x.isWrapper) = 0 := by
        simp [onces]
      rw [hpermanents, honces]
  · exact Or.inr ⟨by simp [hcalls], f, hmem, hstarted, hsame⟩

theorem step_of_plain {op : Op κ E} (hplain : Plain em op)
    (h : EventRegistrations.Step em op em' started) : (of em).Step op (of em') started := by
  cases h with
  | change change =>
    cases change with
    | on event f =>
      rw [show em.change (.on event f) = em.on event f from rfl, of_on]
      exact .on event f
    | once event f =>
      rw [show em.change (.once event f) = em.once event f from rfl, of_once]
      exact .once event f
    | off event f =>
      rw [show em.change (.off event f) = em.off event (.callback f) from rfl]
      rcases hplain with hmem | habsent
      · rw [of_off hmem]
        exact .offPermanent (mem_permanents.mpr hmem)
      · rw [of_off_wrapped fun hmem => habsent _ hmem rfl]
        apply Step.offNone
        intro hmem
        obtain ⟨x, hx, hf⟩ := mem_of_all.mp hmem
        exact habsent x hx hf
    | clear event =>
      cases event with
      | none => exact .clearAll
      | some event =>
        rw [show em.change (.clear (some event)) = em.clear (some event) from rfl, of_clear]
        exact .clear event
  | emit hemits =>
    rcases of_emits hemits with ⟨-, hall, hof⟩ | ⟨hraises, f, hmem, rfl, rfl⟩
    · rw [hof, ← hall]
      exact .emit _ _ _
    · next event suppressErrors calls =>
      obtain ⟨hpermanent, honce⟩ := of_single hmem (hplain.resolve_left hraises)
      have hall : (of em').all event = ([f] : List κ) := by
        rw [all, hpermanent, honce]
        rfl
      have hstep : (of em').Step (.emit event suppressErrors calls) _ _ := .emit _ _ _
      rwa [hall, ← honce, put_eq_self] at hstep

/-- The registrations are those of the emitter but for the way in which some of them were made:
`off` may have removed another one than the emitter has. -/
structure Shadows (r : Registrations κ) (em : Emitter κ) : Prop where
  all : ∀ event, r.all event = (of em).all event
  permanent : ∀ event, (of em).permanent event ≤ r.permanent event

omit [DecidableEq κ] in
theorem Shadows.put {P' O' : Multiset κ} (h : Shadows r em) (hof : of em' = (of em).put event P' O')
    (hall : P + O = P' + O') (hle : P' ≤ P) : Shadows (r.put event P O) em' := by
  constructor
  · intro e
    rw [hof]
    by_cases he : e = event
    · rw [he, Registrations.all, Registrations.all, put_permanent, put_once, put_permanent, put_once]
      exact hall
    · rw [Registrations.all, Registrations.all, (put_other he).1, (put_other he).2,
        (put_other he).1, (put_other he).2]
      exact h.all e
  · intro e
    rw [hof]
    by_cases he : e = event
    · rw [he, put_permanent, put_permanent]
      exact hle
    · rw [(put_other he).1, (put_other he).1]
      exact h.permanent e

theorem Shadows.off (h : Shadows r em) (hmem : .callback f ∈ em.listeners event)
    (href : r.Step (.change (.off event f) : Op κ E) r' called) :
    Shadows r' (em.off event (.callback f)) := by
  have hin : f ∈ (of em).permanent event := mem_permanents.mpr hmem
  have hle := h.permanent event
  have hall : r.permanent event + r.once event = (of em).permanent event + (of em).once event :=
    h.all event
  cases href with
  | offPermanent hin' =>
    apply h.put (of_off hmem)
    · rw [← Multiset.erase_add_left_pos _ hin', hall, Multiset.erase_add_left_pos _ hin]
    · exact Multiset.erase_le_erase f hle
  | offOnce hin' =>
    apply h.put (of_off hmem)
    · rw [← Multiset.erase_add_right_pos _ hin', hall, Multiset.erase_add_left_pos _ hin]
    · exact (Multiset.erase_le f _).trans hle
  | offNone hnot =>
    exact absurd (Multiset.mem_add.mpr (Or.inl (Multiset.mem_of_le hle hin))) hnot

/-- Where `off` should remove what `once` has registered, the numbers differ. -/
theorem Shadows.off_wrapped (h : Shadows r em)
    (href : r.Step (.change (.off event f) : Op κ E) r' called)
    (hcount : em.listenerCount event = (r'.all event).card) :
    f ∉ (of em).all event ∧ r' = r := by
  rw [← card_of_all, ← h.all event] at hcount
  rw [← h.all event]
  cases href with
  | offPermanent hin =>
    have hcard := Multiset.card_erase_add_one hin
    simp only [Registrations.all, put_permanent, put_once, Multiset.card_add] at hcount
    omega
  | offOnce hin =>
    have hcard := Multiset.card_erase_add_one hin
    simp only [Registrations.all, put_permanent, put_once, Multiset.card_add] at hcount
    omega
  | offNone hnot => exact ⟨hnot, rfl⟩

/-- Where the registrations can take a step and agree with the emitter afterwards, the operation is
plain. -/
theorem Shadows.step {op : Op κ E} (h : Shadows r em)
    (hstep : EventRegistrations.Step em op em' started) (href : r.Step op r' called)
    (hcalled : called = started) (hcount : ∀ event, em'.listenerCount event = (r'.all event).card) :
    Plain em op ∧ Shadows r' em' := by
  cases hstep with
  | change change =>
    cases change with
    | on event f =>
      cases href
      refine ⟨trivial, h.put of_on ?_ (Multiset.cons_le_cons f (h.permanent event))⟩
      rw [Multiset.cons_add, Multiset.cons_add]
      exact congrArg _ (h.all event)
    | once event f =>
      cases href
      refine ⟨trivial, h.put of_once ?_ (h.permanent event)⟩
      rw [Multiset.add_cons, Multiset.add_cons]
      exact congrArg _ (h.all event)
    | off event f =>
      by_cases hmem : .callback f ∈ em.listeners event
      · exact ⟨Or.inl hmem, h.off hmem href⟩
      · have hsame : (em.off event (.callback f)).listenerCount event = em.listenerCount event := by
          rw [← card_of_all, of_off_wrapped hmem, card_of_all]
        obtain ⟨hnot, rfl⟩ := h.off_wrapped href (hsame.symm.trans (hcount event))
        refine ⟨Or.inr fun x hx hf => hnot (mem_of_all.mpr ⟨x, hx, hf⟩), ?_⟩
        have hof := of_off_wrapped hmem
        exact ⟨fun e => (h.all e).trans (by rw [← hof]; rfl), fun e => by
          rw [show em.change (.off event f) = em.off event (.callback f) from rfl, hof]
          exact h.permanent e⟩
    | clear event =>
      cases event with
      | none =>
        cases href
        exact ⟨trivial, fun e => rfl, fun e => le_rfl⟩
      | some event =>
        cases href
        exact ⟨trivial, h.put of_clear rfl le_rfl⟩
  | emit hemits =>
    cases href
    rcases of_emits hemits with ⟨hcalls, -, hof⟩ | ⟨-, f, hmem, rfl, rfl⟩
    · next event suppressErrors calls =>
      refine ⟨Or.inl hcalls, h.put hof ?_ (h.permanent _)⟩
      have hcard := hcount event
      rw [← card_of_all, hof, Registrations.all, Registrations.all, put_permanent, put_once,
        put_permanent, put_once, Multiset.add_zero, Multiset.add_zero] at hcard
      rw [Multiset.eq_of_le_of_card_le (h.permanent _) hcard.ge]
    · next event suppressErrors calls =>
      have hlength : (em'.listeners event).length = 1 := by
        have hcard : ((of em').all event).card = em'.listenerCount event := card_of_all
        rw [← h.all, hcalled] at hcard
        exact hcard.symm
      obtain ⟨hpermanent, -⟩ := of_single hmem hlength
      have hnone : r.once event = 0 := by
        have hle := Multiset.card_le_card (h.permanent event)
        have hsum : (r.permanent event + r.once event).card = 1 := congrArg Multiset.card hcalled
        rw [hpermanent, Multiset.card_singleton] at hle
        rw [Multiset.card_add] at hsum
        exact Multiset.card_eq_zero.mp (by omega)
      refine ⟨Or.inr hlength, ?_⟩
      rw [← hnone, put_eq_self]
      exact h

omit [DecidableEq κ] in
theorem shadows_of (em : Emitter κ) : Shadows (of em) em := ⟨fun _ => rfl, fun _ => le_rfl⟩

end Registrations

variable {steps : List (Op κ E × Emitter κ × List κ)}

theorem refines_of_allPlain (hrun : Run em steps) (h : AllPlain em steps) :
    Refines (.of em) steps := by
  induction hrun with
  | nil => exact .nil
  | cons hstep _ ih =>
    exact .cons (Registrations.step_of_plain h.1 hstep)
      (fun event => Registrations.card_of_all.symm) (ih h.2)

theorem allPlain_of_refines {r : Registrations κ} (hrun : Run em steps) (hshadows : r.Shadows em)
    (h : Refines r steps) : AllPlain em steps := by
  induction hrun generalizing r with
  | nil => trivial
  | cons hstep _ ih =>
    cases h with
    | cons href hcount hrest =>
      obtain ⟨hplain, hnext⟩ := hshadows.step hstep href rfl hcount
      exact ⟨hplain, ih hnext hrest⟩

/-- Beside any operations on a new emitter the registrations can take the same steps, if and only
if the operations are plain. -/
theorem refines_iff_allPlain (hrun : Run Emitter.new steps) :
    Refines Registrations.none steps ↔ AllPlain Emitter.new steps := by
  constructor
  · exact allPlain_of_refines hrun (Registrations.shadows_of Emitter.new)
  · exact refines_of_allPlain hrun

theorem exists_emits (moves : List (Move (Proc κ E) (Action κ E))) (p : Emission κ E)
    (hown : ∀ m ∈ moves, ∃ a, m = .act 0 a)
    (hrun : (run program (entered em event suppressErrors calls) moves).map Config.procs =
      some [.emission p]) (hended : p.Ended) :
    ∃ em', Emits em event suppressErrors calls em' (p.starts.map fun s => s.2.target) := by
  obtain ⟨⟨es, procs⟩, hrun, rfl⟩ := Option.map_eq_some_iff.mp hrun
  exact ⟨es 0, .intro (reach_run (allowed_of_forall fun m hm _ => hown m hm) hrun) hended⟩

/-- The next emission calls a callback that `once` has registered and `off` should have removed. -/
theorem once_not_removed : ∃ steps : List (Op ℕ ℕ × Emitter ℕ × List ℕ),
    steps.map (fun s => s.2.2) = [[], [], [7]] ∧ Run Emitter.new steps ∧
      ¬ Refines Registrations.none steps := by
  have hemits : ∃ em', Emits (E := ℕ)
      ((Emitter.new.once (.torrent .completed) 7).off (.torrent .completed) (.callback 7))
      (.torrent .completed) false (fun _ => none) em' [7] :=
    exists_emits [.act 0 (.starts 0), .act 0 (.finishes 0 none), .act 0 (.proceeds fun _ => none)]
      ⟨.torrent .completed, false, [0], [],
        [(0, [⟨.wrapper 0 (.torrent .completed) 7, .done none⟩])],
        [(0, .wrapper 0 (.torrent .completed) 7)], .returned⟩ (by simp) (by decide) (Or.inl rfl)
  obtain ⟨em', hemits⟩ := hemits
  have hrun : Run Emitter.new [(.change (.once (.torrent .completed) 7), _, []),
      (.change (.off (.torrent .completed) 7), _, []),
      (.emit (.torrent .completed) false fun _ => none, em', [7])] :=
    .cons (.change _) (.cons (.change _) (.cons (.emit hemits) .nil))
  refine ⟨_, rfl, hrun, fun h => ?_⟩
  have hplain := allPlain_of_refines hrun (Registrations.shadows_of Emitter.new) h
  rcases hplain.2.1 with hmem | habsent
  · revert hmem
    decide
  · exact habsent (.wrapper 0 (.torrent .completed) 7) (by decide) rfl

theorem refines_iff_allPlain_once : ∃ steps : List (Op ℕ ℕ × Emitter ℕ × List ℕ),
    steps.map (fun s => s.2.2) = [[], [7]] ∧ Run Emitter.new steps ∧
      (Refines Registrations.none steps ↔ AllPlain Emitter.new steps) := by
  have hemits : ∃ em', Emits (E := ℕ) (Emitter.new.once (.torrent .completed) 7)
      (.torrent .completed) false (fun _ => none) em' [7] :=
    exists_emits [.act 0 (.starts 0), .act 0 (.finishes 0 none), .act 0 (.proceeds fun _ => none)]
      ⟨.torrent .completed, false, [0], [],
        [(0, [⟨.wrapper 0 (.torrent .completed) 7, .done none⟩])],
        [(0, .wrapper 0 (.torrent .completed) 7)], .returned⟩ (by simp) (by decide) (Or.inl rfl)
  obtain ⟨em', hemits⟩ := hemits
  have hrun : Run Emitter.new [(.change (.once (.torrent .completed) 7), _, []),
      (.emit (.torrent .completed) false fun _ => none, em', [7])] :=
    .cons (.change _) (.cons (.emit hemits) .nil)
  exact ⟨_, rfl, hrun, refines_iff_allPlain hrun⟩

end EventRegistrations
