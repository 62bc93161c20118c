import Aiobt.InterleavedProcesses
import Mathlib.Data.List.Nodup

/-! # The event emitter

`EventEmitter` with its registrations, and `emit` as a process that shares the emitters with
whatever registers callbacks. An emission visits an emitter and its parents; at each of them it
takes a snapshot of the listeners, calls them, and waits until the tasks that `gather` has made of
them are done. -/
namespace EventEmitter

open InterleavedProcesses

inductive ClientEvent where
  | torrentAdded
  | torrentRemoved
  | torrentCompleted
  | torrentError
  deriving DecidableEq, Repr

inductive TorrentEvent where
  | stateChanged
  | pieceVerified
  | peerConnected
  | peerDisconnected
  | trackerAnnounce
  | trackerResponse
  | trackerFailed
  | completed
  | error
  deriving DecidableEq, Repr

inductive EventType where
  | client (event : ClientEvent)
  | torrent (event : TorrentEvent)
  deriving DecidableEq, Repr

variable {κ E : Type}

/-- What the list of an event holds: a callback, or the function that `once` makes around one. Each
of these is an object of its own, which refers to the event it is registered for. -/
inductive Listener (κ : Type) where
  | callback (callback : κ)
  | wrapper (id : ℕ) (event : EventType) (original : κ)
  deriving DecidableEq

def Listener.id? : Listener κ → Option ℕ
  | .callback _ => none
  | .wrapper id _ _ => some id

def Listener.target : Listener κ → κ
  | .callback f => f
  | .wrapper _ _ original => original

def Listener.isWrapper : Listener κ → Bool
  | .callback _ => false
  | .wrapper _ _ _ => true

/-- `on` and `once` return the callback that they are given, so that nobody else holds a wrapper: it
is registered once, and for its own event only. -/
structure Emitter (κ : Type) where
  listeners : EventType → List (Listener κ)
  made : ℕ
  own : ∀ event id e original, .wrapper id e original ∈ listeners event → e = event ∧ id < made
  single : ∀ event, ((listeners event).filterMap Listener.id?).Nodup

namespace Emitter

def new : Emitter κ := ⟨fun _ => [], 0, by simp, by simp⟩

def keep (em : Emitter κ) (listeners : EventType → List (Listener κ))
    (h : ∀ event, (listeners event).Sublist (em.listeners event)) : Emitter κ where
  listeners := listeners
  made := em.made
  own := fun event id e original hmem => em.own event id e original ((h event).subset hmem)
  single := fun event => (em.single event).sublist ((h event).filterMap _)

def put (em : Emitter κ) (event : EventType) (list : List (Listener κ)) :
    EventType → List (Listener κ) :=
  fun e => if e = event then list else em.listeners e

@[simp] theorem put_self {em : Emitter κ} {event : EventType} {list : List (Listener κ)} :
    em.put event list event = list := if_pos rfl

theorem put_other {em : Emitter κ} {event e : EventType} {list : List (Listener κ)} (h : e ≠ event) :
    em.put event list e = em.listeners e := if_neg h

theorem put_sublist {em : Emitter κ} {event : EventType} {list : List (Listener κ)}
    (h : list.Sublist (em.listeners event)) (e : EventType) :
    (em.put event list e).Sublist (em.listeners e) := by
  unfold put
  split
  · next he => exact he ▸ h
  · exact List.Sublist.refl _

def on (em : Emitter κ) (event : EventType) (callback : κ) : Emitter κ where
  listeners := em.put event (em.listeners event ++ [.callback callback])
  made := em.made
  own := by
    intro e id e' original hmem
    unfold put at hmem
    split at hmem
    · next he =>
      rcases List.mem_append.mp hmem with hmem | hmem
      · exact he ▸ em.own event id e' original hmem
      · cases List.mem_singleton.mp hmem
    · exact em.own e id e' original hmem
  single := by
    intro e
    unfold put
    split
    · rw [List.filterMap_append, List.filterMap_cons_none rfl, List.filterMap_nil, List.append_nil]
      exact em.single event
    · exact em.single e

def once (em : Emitter κ) (event : EventType) (callback : κ) : Emitter κ where
  listeners := em.put event (em.listeners event ++ [.wrapper em.made event callback])
  made := em.made + 1
  own := by
    intro e id e' original hmem
    unfold put at hmem
    split at hmem
    · next he =>
      rcases List.mem_append.mp hmem with hmem | hmem
      · obtain ⟨hevent, hid⟩ := em.own event id e' original hmem
        exact ⟨hevent.trans he.symm, by omega⟩
      · obtain ⟨rfl, rfl, rfl⟩ := Listener.wrapper.inj (List.mem_singleton.mp hmem)
        exact ⟨he.symm, by omega⟩
    · obtain ⟨hevent, hid⟩ := em.own e id e' original hmem
      exact ⟨hevent, by omega⟩
  single := by
    intro e
    unfold put
    split
    · rw [List.filterMap_append]
      apply List.Nodup.append (em.single event) (by simp [Listener.id?])
      intro id hid hnew
      obtain rfl : id = em.made := by simpa [Listener.id?] using hnew
      obtain ⟨listener, hmem, hlistener⟩ := List.mem_filterMap.mp hid
      cases listener with
      | callback _ => cases hlistener
      | wrapper id e' original =>
        obtain rfl := Option.some.inj hlistener
        exact absurd (em.own event _ e' original hmem).2 (by omega)
    · exact em.single e

def listenerCount (em : Emitter κ) (event : EventType) : ℕ := (em.listeners event).length

def clear (em : Emitter κ) : Option EventType → Emitter κ
  | none => em.keep (fun _ => []) fun _ => List.nil_sublist _
  | some event => em.keep (em.put event []) (put_sublist (List.nil_sublist _))

@[simp] theorem on_listeners {em : Emitter κ} {event : EventType} {callback : κ} :
    (em.on event callback).listeners = em.put event (em.listeners event ++ [.callback callback]) :=
  rfl

@[simp] theorem once_listeners {em : Emitter κ} {event : EventType} {callback : κ} :
    (em.once event callback).listeners =
      em.put event (em.listeners event ++ [.wrapper em.made event callback]) := rfl

section

variable [DecidableEq κ]

/-- `list.remove` takes out the first listener that equals the given one. -/
def off (em : Emitter κ) (event : EventType) (listener : Listener κ) : Emitter κ :=
  em.keep (em.put event ((em.listeners event).erase listener)) (put_sublist List.erase_sublist)

@[simp] theorem off_listeners {em : Emitter κ} {event : EventType} {listener : Listener κ} :
    (em.off event listener).listeners = em.put event ((em.listeners event).erase listener) := rfl

theorem count_wrapper_le (em : Emitter κ) (event : EventType) (id : ℕ) (e : EventType) (original : κ) :
    (em.listeners event).count (.wrapper id e original) ≤ 1 := by
  have hids : ((em.listeners event).filterMap Listener.id?).count id ≤ 1 :=
    List.nodup_iff_count_le_one.mp (em.single event) id
  refine Nat.le_trans ?_ hids
  rw [List.count_filterMap]
  apply List.countP_mono_left
  intro x _ hx
  obtain rfl : x = .wrapper id e original := by simpa using hx
  simp [Listener.id?]

end

end Emitter

inductive Status (E : Type) where
  | scheduled
  | running
  | done (outcome : Option E)
  deriving DecidableEq

def Status.isDone : Status E → Bool
  | .done _ => true
  | _ => false

def Status.isScheduled : Status E → Bool
  | .scheduled => true
  | _ => false

@[simp] theorem Status.isScheduled_scheduled : (Status.scheduled : Status E).isScheduled = true := rfl

@[simp] theorem Status.isScheduled_running : (Status.running : Status E).isScheduled = false := rfl

@[simp] theorem Status.isScheduled_done {outcome : Option E} :
    (Status.done outcome).isScheduled = false := rfl

theorem Status.not_scheduled {s : Status E} (h : s.isDone = true) : s.isScheduled = false := by
  cases s with
  | done outcome => rfl
  | scheduled => cases h
  | running => cases h

def Status.error? : Status E → Option E
  | .done outcome => outcome
  | _ => none

structure Child (κ E : Type) where
  listener : Listener κ
  status : Status E
  deriving DecidableEq

inductive Point (κ E : Type) where
  | starting
  | gathering (emitter : ℕ) (children : List (Child κ E))
  | returned
  | raised (error : E) (unvisited : List (ℕ × List (Listener κ)))
  deriving DecidableEq

structure Emission (κ E : Type) where
  event : EventType
  suppressErrors : Bool
  route : List ℕ
  ahead : List ℕ
  past : List (ℕ × List (Child κ E))
  starts : List (ℕ × Listener κ)
  point : Point κ E
  deriving DecidableEq

def Emission.new (event : EventType) (suppressErrors : Bool) (route : List ℕ) : Emission κ E :=
  ⟨event, suppressErrors, route, route, [], [], .starting⟩

def Emission.Ended (p : Emission κ E) : Prop :=
  p.point = .returned ∨ ∃ error l, p.point = .raised error l

/-- The generator in the arguments of `gather`: `calls` tells which calls raise. A wrapper accepts
all arguments. Where a call raises, no task is made of any listener. -/
def callAll (calls : ℕ → Option E) : ℕ → List (Listener κ) → List (Child κ E) × Option E
  | _, [] => ([], none)
  | k, .callback f :: rest =>
    match calls k with
    | some error =>
      (⟨.callback f, .done (some error)⟩ :: rest.map fun x => ⟨x, .scheduled⟩, some error)
    | none => (⟨.callback f, .scheduled⟩ :: (callAll calls (k + 1) rest).1,
        (callAll calls (k + 1) rest).2)
  | k, .wrapper id event f :: rest =>
    (⟨.wrapper id event f, .scheduled⟩ :: (callAll calls (k + 1) rest).1,
      (callAll calls (k + 1) rest).2)

def begun (i : ℕ) (children : List (Child κ E)) : List (ℕ × Listener κ) :=
  (children.filter fun c => !c.status.isScheduled).map fun c => (i, c.listener)

def registered (es : ℕ → Emitter κ) (event : EventType) (emitters : List ℕ) :
    List (ℕ × List (Listener κ)) :=
  emitters.map fun i => (i, (es i).listeners event)

def call (es : ℕ → Emitter κ) (calls : ℕ → Option E) (p : Emission κ E) (i : ℕ) (rest : List ℕ) :
    Emission κ E :=
  match callAll calls 0 ((es i).listeners p.event) with
  | (children, none) => { p with ahead := rest, point := .gathering i children }
  | (children, some error) =>
    { p with
      ahead := rest
      past := p.past ++ [(i, children)]
      starts := p.starts ++ begun i children
      point := .raised error (registered es p.event rest) }

def visit (es : ℕ → Emitter κ) (calls : ℕ → Option E) (p : Emission κ E) : List ℕ → Emission κ E
  | [] => { p with ahead := [], point := .returned }
  | i :: rest =>
    if ((es i).listeners p.event).isEmpty then
      visit es calls { p with past := p.past ++ [(i, [])] } rest
    else call es calls p i rest

def firstError (children : List (Child κ E)) : Option E :=
  children.findSome? fun c => c.status.error?

def collect (es : ℕ → Emitter κ) (calls : ℕ → Option E) (p : Emission κ E) (i : ℕ)
    (children : List (Child κ E)) : Emission κ E :=
  match firstError children, p.suppressErrors with
  | some error, false =>
    { p with
      past := p.past ++ [(i, children)]
      point := .raised error (registered es p.event p.ahead) }
  | _, _ => visit es calls { p with past := p.past ++ [(i, children)] } p.ahead

def proceed (es : ℕ → Emitter κ) (calls : ℕ → Option E) (p : Emission κ E) :
    Option (Emission κ E) :=
  match p.point with
  | .starting => some (visit es calls p p.ahead)
  | .gathering i children =>
    if children.all fun c => c.status.isDone then some (collect es calls p i children) else none
  | .returned => none
  | .raised _ _ => none

def finish (p : Emission κ E) (k : ℕ) (outcome : Option E) : Option (Emission κ E) :=
  match p.point with
  | .gathering i children =>
    match children[k]? with
    | some ⟨x, .running⟩ =>
      some { p with point := .gathering i (children.set k ⟨x, .done outcome⟩) }
    | _ => none
  | _ => none

inductive Change (κ : Type) where
  | on (event : EventType) (callback : κ)
  | once (event : EventType) (callback : κ)
  | off (event : EventType) (callback : κ)
  | clear (event : Option EventType)

inductive Action (κ E : Type) where
  | proceeds (calls : ℕ → Option E)
  | starts (k : ℕ)
  | finishes (k : ℕ) (outcome : Option E)
  | changes (i : ℕ) (change : Change κ)

inductive Proc (κ E : Type) where
  | emission (p : Emission κ E)
  /-- Whatever registers and unregisters callbacks, the callbacks themselves included. -/
  | registrar
  deriving DecidableEq

/-- An `emit` call comes before its first step. -/
def Begins : Move (Proc κ E) (Action κ E) → Prop
  | .spawn (.emission p) => p = .new p.event p.suppressErrors p.route
  | _ => True

section

variable [DecidableEq κ]

def Emitter.change (em : Emitter κ) : Change κ → Emitter κ
  | .on event f => em.on event f
  | .once event f => em.once event f
  | .off event f => em.off event (.callback f)
  | .clear event => em.clear event

def Listener.enter (em : Emitter κ) : Listener κ → Emitter κ
  | .callback _ => em
  | .wrapper id event f => em.off event (.wrapper id event f)

def start (es : ℕ → Emitter κ) (p : Emission κ E) (k : ℕ) :
    Option ((ℕ → Emitter κ) × Emission κ E) :=
  match p.point with
  | .gathering i children =>
    match children[k]? with
    | some ⟨x, .scheduled⟩ =>
      some (Function.update es i (x.enter (es i)),
        { p with
          starts := p.starts ++ [(i, x)]
          point := .gathering i (children.set k ⟨x, .running⟩) })
    | _ => none
  | _ => none

def program : Program (ℕ → Emitter κ) (Proc κ E) (Action κ E)
  | .proceeds calls, es, .emission p => (proceed es calls p).map fun p' => (es, .emission p')
  | .starts k, es, .emission p => (start es p k).map fun next => (next.1, .emission next.2)
  | .finishes k outcome, es, .emission p => (finish p k outcome).map fun p' => (es, .emission p')
  | .changes i change, es, .registrar =>
    some (Function.update es i ((es i).change change), .registrar)
  | _, _, _ => none

end

def Child.scheduled (x : Listener κ) : Child κ E := ⟨x, .scheduled⟩

theorem callAll_listeners (calls : ℕ → Option E) (k : ℕ) (snapshot : List (Listener κ)) :
    (callAll calls k snapshot).1.map Child.listener = snapshot := by
  induction snapshot generalizing k with
  | nil => rfl
  | cons x rest ih =>
    cases x with
    | callback f =>
      unfold callAll
      split
      · simp [Function.comp_def]
      · simp [ih (k + 1)]
    | wrapper id event f => simp [callAll, ih (k + 1)]

theorem callAll_none {calls : ℕ → Option E} {k : ℕ} {snapshot : List (Listener κ)}
    (h : (callAll calls k snapshot).2 = none) :
    (callAll calls k snapshot).1 = snapshot.map Child.scheduled := by
  induction snapshot generalizing k with
  | nil => rfl
  | cons x rest ih =>
    cases x with
    | callback f =>
      cases hcall : calls k with
      | some error => simp [callAll, hcall] at h
      | none =>
        simp only [callAll, hcall] at h ⊢
        rw [ih h]
        rfl
    | wrapper id event f =>
      simp only [callAll] at h ⊢
      rw [ih h]
      rfl

/-- Where a call raises, it is the one of a permanent callback, and nothing else is started. -/
theorem callAll_some {calls : ℕ → Option E} {k : ℕ} {snapshot : List (Listener κ)} {error : E}
    (h : (callAll calls k snapshot).2 = some error) :
    ∃ before f after, snapshot = before ++ .callback f :: after ∧
      (callAll calls k snapshot).1 = before.map Child.scheduled ++
        ⟨.callback f, .done (some error)⟩ :: after.map Child.scheduled := by
  induction snapshot generalizing k with
  | nil => cases h
  | cons x rest ih =>
    cases x with
    | callback f =>
      cases hcall : calls k with
      | some e =>
        simp only [callAll, hcall, Option.some.injEq] at h
        subst h
        exact ⟨[], f, rest, rfl, by simp only [callAll, hcall]; rfl⟩
      | none =>
        simp only [callAll, hcall] at h
        obtain ⟨before, g, after, rfl, hchildren⟩ := ih h
        exact ⟨.callback f :: before, g, after, rfl, by simp only [callAll, hcall, hchildren]; rfl⟩
    | wrapper id event f =>
      simp only [callAll] at h
      obtain ⟨before, g, after, rfl, hchildren⟩ := ih h
      exact ⟨.wrapper id event f :: before, g, after, rfl, by simp only [callAll, hchildren]; rfl⟩

theorem begun_scheduled {i : ℕ} (l : List (Listener κ)) :
    begun (E := E) i (l.map Child.scheduled) = [] := by
  simp [begun, List.filter_eq_nil_iff, Child.scheduled, Status.isScheduled]

theorem begun_raising {i : ℕ} (before after : List (Listener κ)) {f : κ} (error : E) :
    begun i (before.map Child.scheduled ++
      ⟨.callback f, .done (some error)⟩ :: after.map Child.scheduled) = [(i, .callback f)] := by
  have happend : ∀ l m : List (Child κ E), begun i (l ++ m) = begun i l ++ begun i m := by
    intro l m
    simp [begun]
  rw [List.append_cons, happend, happend, begun_scheduled, begun_scheduled]
  rfl

theorem listeners_set {children : List (Child κ E)} {k : ℕ} {x : Listener κ} {t t' : Status E}
    (h : children[k]? = some ⟨x, t⟩) :
    (children.set k ⟨x, t'⟩).map Child.listener = children.map Child.listener := by
  apply List.ext_getElem?
  intro j
  rw [List.getElem?_map, List.getElem?_map]
  by_cases hj : k = j
  · subst hj
    obtain ⟨hk, hget⟩ := List.getElem?_eq_some_iff.mp h
    rw [List.getElem?_set_self hk, h]
    rfl
  · rw [List.getElem?_set_ne hj]

theorem finish_cases {p p' : Emission κ E} {k : ℕ} {outcome : Option E}
    (h : finish p k outcome = some p') :
    ∃ i children x, p.point = .gathering i children ∧ children[k]? = some ⟨x, .running⟩ ∧
      p' = { p with point := .gathering i (children.set k ⟨x, .done outcome⟩) } := by
  unfold finish at h
  split at h
  · next i children hpoint =>
    split at h
    · next x hchild => exact ⟨i, children, x, hpoint, hchild, (Option.some.inj h).symm⟩
    · cases h
  · cases h

theorem Emission.Ended.not_gathering {p : Emission κ E} {i : ℕ} {children : List (Child κ E)}
    (h : p.Ended) : p.point ≠ .gathering i children := by
  intro hpoint
  rcases h with h | ⟨error, l, h⟩
  · rw [hpoint] at h
    cases h
  · rw [hpoint] at h
    cases h

theorem proceed_cases {es : ℕ → Emitter κ} {calls : ℕ → Option E} {p p' : Emission κ E}
    (h : proceed es calls p = some p') :
    (p.point = .starting ∧ p' = visit es calls p p.ahead) ∨
      ∃ i children, p.point = .gathering i children ∧
        (∀ c ∈ children, c.status.isDone = true) ∧ p' = collect es calls p i children := by
  unfold proceed at h
  split at h
  · next hpoint => exact Or.inl ⟨hpoint, (Option.some.inj h).symm⟩
  · next i children hpoint =>
    split at h
    · next hdone =>
      exact Or.inr ⟨i, children, hpoint, List.all_eq_true.mp hdone, (Option.some.inj h).symm⟩
    · cases h
  · cases h
  · cases h

def Emission.passes (p : Emission κ E) (quiet : List ℕ) : Emission κ E :=
  { p with past := p.past ++ quiet.map fun i => (i, []) }

theorem visit_cases (es : ℕ → Emitter κ) (calls : ℕ → Option E) (p : Emission κ E)
    (ahead : List ℕ) :
    ∃ quiet, (∀ i ∈ quiet, (es i).listeners p.event = []) ∧
      ((ahead = quiet ∧
        visit es calls p ahead = { p.passes quiet with ahead := [], point := .returned }) ∨
      ∃ i rest, ahead = quiet ++ i :: rest ∧ (es i).listeners p.event ≠ [] ∧
        visit es calls p ahead = call es calls (p.passes quiet) i rest) := by
  induction ahead generalizing p with
  | nil =>
    refine ⟨[], by simp, Or.inl ⟨rfl, ?_⟩⟩
    simp [visit, Emission.passes]
  | cons i rest ih =>
    by_cases hlisteners : (es i).listeners p.event = []
    · obtain ⟨quiet, hquiet, hcases⟩ := ih { p with past := p.past ++ [(i, [])] }
      refine ⟨i :: quiet, ?_, ?_⟩
      · intro j hj
        rcases List.mem_cons.mp hj with rfl | hj
        · exact hlisteners
        · exact hquiet j hj
      · rw [visit, if_pos (by simp [hlisteners])]
        simpa [Emission.passes] using hcases
    · refine ⟨[], by simp, Or.inr ⟨i, rest, rfl, hlisteners, ?_⟩⟩
      rw [visit, if_neg (by simpa using hlisteners)]
      simp [Emission.passes]

theorem call_cases (es : ℕ → Emitter κ) (calls : ℕ → Option E) (p : Emission κ E) (i : ℕ)
    (rest : List ℕ) :
    ((callAll calls 0 ((es i).listeners p.event)).2 = none ∧
      call es calls p i rest =
        { p with
          ahead := rest
          point := .gathering i (((es i).listeners p.event).map Child.scheduled) }) ∨
    ∃ error before f after, (es i).listeners p.event = before ++ .callback f :: after ∧
      (callAll calls 0 ((es i).listeners p.event)).2 = some error ∧
      call es calls p i rest =
        { p with
          ahead := rest
          past := p.past ++ [(i, before.map Child.scheduled ++
            ⟨.callback f, .done (some error)⟩ :: after.map Child.scheduled)]
          starts := p.starts ++ [(i, .callback f)]
          point := .raised error (registered es p.event rest) } := by
  cases hraise : (callAll calls 0 ((es i).listeners p.event)).2 with
  | none =>
    refine Or.inl ⟨rfl, ?_⟩
    rw [← callAll_none hraise]
    unfold call
    split
    · next heq => rw [heq]
    · next heq => simp [heq] at hraise
  | some error =>
    obtain ⟨before, f, after, hsplit, hchildren⟩ := callAll_some hraise
    refine Or.inr ⟨error, before, f, after, hsplit, rfl, ?_⟩
    rw [← begun_raising before after error, ← hchildren]
    unfold call
    split
    · next heq => simp [heq] at hraise
    · next heq =>
      rw [heq] at hraise ⊢
      obtain rfl := Option.some.inj hraise
      rfl

theorem step_cases [DecidableEq κ] {a : Action κ E} {es es' : ℕ → Emitter κ} {q q' : Proc κ E}
    (h : program a es q = some (es', q')) :
    (∃ i change, q = .registrar ∧ q' = .registrar ∧
      es' = Function.update es i ((es i).change change)) ∨
    ∃ p p', q = .emission p ∧ q' = .emission p' ∧
      ((∃ calls, a = .proceeds calls ∧ es' = es ∧ proceed es calls p = some p') ∨
      (∃ i children k x, p.point = .gathering i children ∧ children[k]? = some ⟨x, .scheduled⟩ ∧
        es' = Function.update es i (x.enter (es i)) ∧
        p' = { p with
          starts := p.starts ++ [(i, x)]
          point := .gathering i (children.set k ⟨x, .running⟩) }) ∨
      ∃ i children k x outcome, p.point = .gathering i children ∧
        children[k]? = some ⟨x, .running⟩ ∧ es' = es ∧
        p' = { p with point := .gathering i (children.set k ⟨x, .done outcome⟩) }) := by
  unfold program at h
  split at h
  · next calls p =>
    obtain ⟨p', hstep, heq⟩ := Option.map_eq_some_iff.mp h
    obtain ⟨rfl, rfl⟩ := Prod.mk.inj heq
    exact Or.inr ⟨p, p', rfl, rfl, Or.inl ⟨calls, rfl, rfl, hstep⟩⟩
  · next k p =>
    obtain ⟨⟨es₁, p'⟩, hstep, heq⟩ := Option.map_eq_some_iff.mp h
    obtain ⟨rfl, rfl⟩ := Prod.mk.inj heq
    refine Or.inr ⟨p, p', rfl, rfl, Or.inr (Or.inl ?_)⟩
    unfold start at hstep
    split at hstep
    · next i children hpoint =>
      split at hstep
      · next x hchild =>
        obtain ⟨rfl, rfl⟩ := Prod.mk.inj (Option.some.inj hstep)
        exact ⟨i, children, k, x, hpoint, hchild, rfl, rfl⟩
      · cases hstep
    · cases hstep
  · next k outcome p =>
    obtain ⟨p', hstep, heq⟩ := Option.map_eq_some_iff.mp h
    obtain ⟨rfl, rfl⟩ := Prod.mk.inj heq
    obtain ⟨i, children, x, hpoint, hchild, rfl⟩ := finish_cases hstep
    exact Or.inr ⟨p, _, rfl, rfl, Or.inr (Or.inr ⟨i, children, k, x, outcome, hpoint, hchild, rfl, rfl⟩)⟩
  · next i change =>
    obtain ⟨rfl, rfl⟩ := Prod.mk.inj (Option.some.inj h)
    exact Or.inl ⟨i, change, rfl, rfl, rfl⟩
  · cases h

theorem Emission.Ended.program_none [DecidableEq κ] {a : Action κ E} {es : ℕ → Emitter κ}
    {p : Emission κ E} (h : p.Ended) : program a es (.emission p) = none := by
  cases hstep : program a es (.emission p) with
  | none => rfl
  | some next =>
    rcases step_cases hstep with ⟨_, _, hreg, _⟩ | ⟨p₁, p', hp, -, hcases⟩
    · cases hreg
    · cases hp
      rcases hcases with ⟨calls, -, -, hproceed⟩ | ⟨i, children, k, x, hpoint, -⟩ |
        ⟨i, children, k, x, outcome, hpoint, -⟩
      · rcases h with h | ⟨error, l, h⟩ <;> simp [proceed, h] at hproceed
      · exact absurd hpoint h.not_gathering
      · exact absurd hpoint h.not_gathering

end EventEmitter
