import Aiobt.EventEmitter

/-! # Callbacks registered with `once`

Any number of emissions, on any emitters, between which callbacks are registered and unregistered.
A wrapper takes itself off the list when its task starts, which is after the snapshot. -/
namespace OnceListeners

open InterleavedProcesses EventEmitter

variable {κ E : Type} [DecidableEq κ]

abbrev Bus (κ E : Type) := Config (ℕ → Emitter κ) (Proc κ E)

def startedBy (i : ℕ) (x : Listener κ) : Proc κ E → ℕ
  | .emission p => p.starts.count (i, x)
  | .registrar => 0

/-- How many tasks of an emission are to start a listener at an emitter. -/
def dueBy (i : ℕ) (x : Listener κ) : Proc κ E → ℕ
  | .emission p =>
    match p.point with
    | .gathering j children =>
      if j = i then children.countP fun c => decide (c.listener = x) && c.status.isScheduled else 0
    | _ => 0
  | .registrar => 0

def started (c : Bus κ E) (i : ℕ) (x : Listener κ) : ℕ := (c.procs.map (startedBy i x)).sum

def due (c : Bus κ E) (i : ℕ) (x : Listener κ) : ℕ := (c.procs.map (dueBy i x)).sum

def OnceOnly (c : Bus κ E) : Prop := ∀ i x, x.isWrapper = true → started c i x ≤ 1

def goesOn (p : Emission κ E) : Bool :=
  match p.point with
  | .starting => true
  | .gathering _ children =>
    (children.all fun c => c.status.isDone) && (p.suppressErrors || (firstError children).isNone)
  | _ => false

/-- The next step of the emission makes tasks of the listeners of this emitter. -/
def Snapshots (es : ℕ → Emitter κ) (calls : ℕ → Option E) (p : Emission κ E) (i : ℕ) : Prop :=
  goesOn p = true ∧
    p.ahead.find? (fun j => !((es j).listeners p.event).isEmpty) = some i ∧
    (callAll calls 0 ((es i).listeners p.event)).2 = none

/-- No snapshot holds a wrapper that another emission has made a task of and not started. -/
def Started (c : Bus κ E) : Move (Proc κ E) (Action κ E) → Prop
  | .act k (.proceeds calls) => ∀ p i x, c.procs[k]? = some (.emission p) →
      Snapshots c.shared calls p i → x ∈ (c.shared i).listeners p.event → x.isWrapper = true →
      due c i x = 0
  | _ => True

def Orderly (c : Bus κ E) (m : Move (Proc κ E) (Action κ E)) : Prop := Begins m ∧ Started c m

variable {a : Action κ E} {es es' : ℕ → Emitter κ} {q q' : Proc κ E} {p p' : Emission κ E}
  {calls : ℕ → Option E} {i k : ℕ} {x : Listener κ} {em : Emitter κ}

theorem change_cases (change : Change κ) (event : EventType) (hx : x.isWrapper = true)
    (h : x ∈ (em.change change).listeners event) :
    x ∈ em.listeners event ∨ x.id? = some em.made := by
  have happend : ∀ e y, x ∈ em.put e (em.listeners e ++ [y]) event →
      x ∈ em.listeners event ∨ x = y := by
    intro e y hmem
    by_cases he : event = e
    · subst he
      simpa using hmem
    · rw [Emitter.put_other he] at hmem
      exact Or.inl hmem
  cases change with
  | on e f =>
    rcases happend e _ h with h | rfl
    · exact Or.inl h
    · cases hx
  | once e f =>
    rcases happend e _ h with h | rfl
    · exact Or.inl h
    · exact Or.inr rfl
  | off e f => exact Or.inl ((Emitter.put_sublist List.erase_sublist event).subset h)
  | clear e =>
    cases e with
    | none => cases h
    | some e => exact Or.inl ((Emitter.put_sublist (List.nil_sublist _) event).subset h)

theorem change_made (change : Change κ) : em.made ≤ (em.change change).made := by
  cases change with
  | on e f => exact Nat.le_refl _
  | once e f => exact Nat.le_succ _
  | off e f => exact Nat.le_refl _
  | clear e => cases e <;> exact Nat.le_refl _

theorem enter_sublist (event : EventType) :
    ((x.enter em).listeners event).Sublist (em.listeners event) := by
  cases x with
  | callback f => exact List.Sublist.refl _
  | wrapper id e f => exact Emitter.put_sublist List.erase_sublist event

theorem enter_made : (x.enter em).made = em.made := by
  cases x <;> rfl

/-- A wrapper whose task has started is registered nowhere. -/
theorem not_mem_enter (hx : x.isWrapper = true) (event : EventType) :
    x ∉ (x.enter em).listeners event := by
  intro hmem
  cases x with
  | callback f => cases hx
  | wrapper id e f =>
    obtain ⟨rfl, -⟩ := em.own event id e f ((enter_sublist event).subset hmem)
    rw [show ((Listener.wrapper id e f).enter em).listeners e =
      (em.listeners e).erase (.wrapper id e f) from Emitter.put_self] at hmem
    have hcount := List.count_pos_iff.mpr hmem
    have hle := em.count_wrapper_le e id e f
    rw [List.count_erase_self] at hcount
    omega

theorem step_made (h : program a es q = some (es', q')) : (es i).made ≤ (es' i).made := by
  rcases step_cases h with ⟨j, change, -, -, rfl⟩ | ⟨p, p', -, -, hcases⟩
  · by_cases hij : i = j
    · subst hij
      rw [Function.update_self]
      exact change_made change
    · exact Nat.le_of_eq (by rw [Function.update_of_ne hij])
  · rcases hcases with ⟨calls, -, rfl, -⟩ | ⟨j, children, k, y, -, -, rfl, -⟩ |
      ⟨j, children, k, y, outcome, -, -, rfl, -⟩
    · exact Nat.le_refl _
    · by_cases hij : i = j
      · subst hij
        exact Nat.le_of_eq (by rw [Function.update_self, enter_made])
      · exact Nat.le_of_eq (by rw [Function.update_of_ne hij])
    · exact Nat.le_refl _

/-- A wrapper that is registered after a step was registered before, or `once` has just made it. -/
theorem step_registered (h : program a es q = some (es', q')) (hx : x.isWrapper = true)
    {event : EventType} (hmem : x ∈ (es' i).listeners event) :
    x ∈ (es i).listeners event ∨ x.id? = some (es i).made := by
  rcases step_cases h with ⟨j, change, -, -, rfl⟩ | ⟨p, p', -, -, hcases⟩
  · by_cases hij : i = j
    · subst hij
      rw [Function.update_self] at hmem
      exact change_cases change event hx hmem
    · rw [Function.update_of_ne hij] at hmem
      exact Or.inl hmem
  · rcases hcases with ⟨calls, -, rfl, -⟩ | ⟨j, children, k, y, -, -, rfl, -⟩ |
      ⟨j, children, k, y, outcome, -, -, rfl, -⟩
    · exact Or.inl hmem
    · by_cases hij : i = j
      · subst hij
        rw [Function.update_self] at hmem
        exact Or.inl ((enter_sublist event).subset hmem)
      · rw [Function.update_of_ne hij] at hmem
        exact Or.inl hmem
    · exact Or.inl hmem

theorem due_scheduled (l : List (Listener κ)) :
    ((l.map Child.scheduled).countP fun c : Child κ E =>
      decide (c.listener = x) && c.status.isScheduled) = l.count x := by
  rw [List.countP_map]
  apply List.countP_congr
  intro y _
  simp only [Function.comp_apply, Child.scheduled, Status.isScheduled, Bool.and_true, beq_iff_eq]
  exact decide_eq_true_iff

theorem due_of_done {children : List (Child κ E)} (h : ∀ c ∈ children, c.status.isDone = true) :
    (children.countP fun c => decide (c.listener = x) && c.status.isScheduled) = 0 := by
  apply List.countP_eq_zero.mpr
  intro c hc hboth
  rw [Status.not_scheduled (h c hc), Bool.and_false] at hboth
  cases hboth

theorem dueBy_gathering {j : ℕ} {children : List (Child κ E)}
    (h : p.point = .gathering j children) :
    dueBy i x (.emission p) = if j = i then
      children.countP fun c => decide (c.listener = x) && c.status.isScheduled else 0 := by
  simp only [dueBy, h]

theorem dueBy_elsewhere (h : ∀ j children, p.point ≠ .gathering j children) :
    dueBy i x (.emission p) = 0 := by
  simp only [dueBy]

omit [DecidableEq κ] in
theorem find_ahead {event : EventType} {quiet : List ℕ} (rest : List ℕ)
    (hquiet : ∀ j ∈ quiet, (es j).listeners event = []) (hsome : (es i).listeners event ≠ []) :
    (quiet ++ i :: rest).find? (fun j => !((es j).listeners event).isEmpty) = some i := by
  rw [List.find?_append, List.find?_eq_none.mpr (by simpa using hquiet),
    List.find?_cons_of_pos (by simpa using hsome)]
  rfl

theorem count_wrapper (hx : x.isWrapper = true) {event : EventType}
    (hmem : x ∈ em.listeners event) : (em.listeners event).count x = 1 := by
  cases x with
  | callback f => cases hx
  | wrapper id e f =>
    exact Nat.le_antisymm (em.count_wrapper_le event id e f) (List.count_pos_iff.mpr hmem)

/-- The emission makes tasks of the listeners of an emitter ahead. -/
def Calls (es : ℕ → Emitter κ) (calls : ℕ → Option E) (event : EventType) (ahead : List ℕ) (i : ℕ) :
    Prop :=
  ahead.find? (fun j => !((es j).listeners event).isEmpty) = some i ∧
    (callAll calls 0 ((es i).listeners event)).2 = none

/-- Going on to the emitters ahead starts no wrapper and makes tasks at one of them. -/
theorem visit_effect (es : ℕ → Emitter κ) (calls : ℕ → Option E) (p : Emission κ E)
    (ahead : List ℕ) (i : ℕ) (hx : x.isWrapper = true) :
    startedBy i x (.emission (visit es calls p ahead)) = startedBy i x (.emission p) ∧
      ((Calls es calls p.event ahead i ∧ dueBy i x (.emission (visit es calls p ahead)) =
        ((es i).listeners p.event).count x) ∨
      (¬ Calls es calls p.event ahead i ∧
        dueBy i x (.emission (visit es calls p ahead)) = 0)) := by
  obtain ⟨quiet, hquiet, ⟨rfl, hvisit⟩ | ⟨j, rest, rfl, hsome, hvisit⟩⟩ :=
    visit_cases es calls p ahead
  · rw [hvisit]
    refine ⟨rfl, Or.inr ⟨?_, rfl⟩⟩
    rintro ⟨hfind, -⟩
    rw [List.find?_eq_none.mpr (by simpa using hquiet)] at hfind
    cases hfind
  · have hfind := find_ahead rest hquiet hsome
    rw [hvisit]
    rcases call_cases es calls (p.passes quiet) j rest with
      ⟨hcalls, hcall⟩ | ⟨error, before, f, after, -, hcalls, hcall⟩
    · rw [hcall]
      refine ⟨rfl, ?_⟩
      rw [dueBy_gathering rfl, due_scheduled]
      by_cases hji : j = i
      · subst hji
        exact Or.inl ⟨⟨hfind, hcalls⟩, if_pos rfl⟩
      · refine Or.inr ⟨?_, if_neg hji⟩
        rintro ⟨hother, -⟩
        exact hji (Option.some.inj (hfind.symm.trans hother))
    · rw [hcall]
      refine ⟨?_, Or.inr ⟨?_, rfl⟩⟩
      · have hne : (j, Listener.callback f) ≠ (i, x) := by
          rintro hsame
          obtain ⟨-, rfl⟩ := Prod.mk.inj hsame
          cases hx
        simp [startedBy, Emission.passes, List.count_append, hne]
      · rintro ⟨hother, hnone⟩
        obtain rfl := Option.some.inj (hfind.symm.trans hother)
        exact absurd (hcalls.symm.trans hnone) (by simp)

theorem proceed_effect (h : proceed es calls p = some p') (i : ℕ) (hx : x.isWrapper = true) :
    startedBy i x (.emission p') = startedBy i x (.emission p) ∧ dueBy i x (.emission p) = 0 ∧
      ((Snapshots es calls p i ∧ dueBy i x (.emission p') = ((es i).listeners p.event).count x) ∨
      (¬ Snapshots es calls p i ∧ dueBy i x (.emission p') = 0)) := by
  rcases proceed_cases h with ⟨hpoint, rfl⟩ | ⟨j, children, hpoint, hdone, rfl⟩
  · have hgoes : goesOn p = true := by simp [goesOn, hpoint]
    obtain ⟨hstarted, ⟨hcalls, hdue⟩ | ⟨hcalls, hdue⟩⟩ := visit_effect es calls p p.ahead i hx
    · exact ⟨hstarted, dueBy_elsewhere (by simp [hpoint]), Or.inl ⟨⟨hgoes, hcalls⟩, hdue⟩⟩
    · exact ⟨hstarted, dueBy_elsewhere (by simp [hpoint]),
        Or.inr ⟨fun hsnapshots => hcalls hsnapshots.2, hdue⟩⟩
  · have hold : dueBy i x (.emission p) = 0 := by
      rw [dueBy_gathering hpoint, due_of_done hdone]
      exact ite_self 0
    have hgoes : goesOn p = (p.suppressErrors || (firstError children).isNone) := by
      simp only [goesOn, hpoint, List.all_eq_true.mpr hdone, Bool.true_and]
    unfold collect
    split
    · next error herror hsuppress =>
      refine ⟨rfl, hold, Or.inr ⟨?_, rfl⟩⟩
      rintro ⟨hon, -⟩
      rw [hgoes, herror, hsuppress] at hon
      cases hon
    · next hon =>
      have hgoes : goesOn p = true := by
        rw [hgoes]
        cases herror : firstError children with
        | none => simp
        | some error =>
          cases hsuppress : p.suppressErrors with
          | true => rfl
          | false => exact absurd hsuppress (hon error herror)
      obtain ⟨hstarted, ⟨hcalls, hdue⟩ | ⟨hcalls, hdue⟩⟩ :=
        visit_effect es calls { p with past := p.past ++ [(j, children)] } p.ahead i hx
      · exact ⟨hstarted, hold, Or.inl ⟨⟨hgoes, hcalls⟩, hdue⟩⟩
      · exact ⟨hstarted, hold, Or.inr ⟨fun hsnapshots => hcalls hsnapshots.2, hdue⟩⟩

theorem due_set {children : List (Child κ E)} {y : Listener κ} {s t : Status E}
    (h : children[k]? = some ⟨y, s⟩) :
    (children.set k ⟨y, t⟩).countP (fun c => decide (c.listener = x) && c.status.isScheduled) +
        (if y = x ∧ s.isScheduled then 1 else 0) =
      (children.countP fun c => decide (c.listener = x) && c.status.isScheduled) +
        (if y = x ∧ t.isScheduled then 1 else 0) := by
  have hset := countP_set_add (P := fun c => decide (c.listener = x) && c.status.isScheduled)
    ⟨y, t⟩ h
  simpa using hset

theorem step_effect (h : program a es q = some (es', q')) (hx : x.isWrapper = true) :
    (startedBy i x q' = startedBy i x q ∧ dueBy i x q' = dueBy i x q) ∨
    (∃ calls p, a = .proceeds calls ∧ q = .emission p ∧ Snapshots es calls p i ∧
      x ∈ (es i).listeners p.event ∧ startedBy i x q' = startedBy i x q ∧
      dueBy i x q = 0 ∧ dueBy i x q' = 1) ∨
    (startedBy i x q' = startedBy i x q + 1 ∧ dueBy i x q = dueBy i x q' + 1 ∧
      ∀ event, x ∉ (es' i).listeners event) := by
  rcases step_cases h with ⟨j, change, rfl, rfl, -⟩ | ⟨p, p', rfl, rfl, hcases⟩
  · exact Or.inl ⟨rfl, rfl⟩
  · rcases hcases with ⟨calls, rfl, rfl, hproceed⟩ | ⟨j, children, k, y, hpoint, hchild, rfl, rfl⟩ |
      ⟨j, children, k, y, outcome, hpoint, hchild, rfl, rfl⟩
    · obtain ⟨hstarted, hold, ⟨hsnapshots, hcount⟩ | ⟨-, hzero⟩⟩ := proceed_effect hproceed i hx
      · by_cases hmem : x ∈ (es' i).listeners p.event
        · rw [count_wrapper hx hmem] at hcount
          exact Or.inr (Or.inl ⟨calls, p, rfl, rfl, hsnapshots, hmem, hstarted, hold, hcount⟩)
        · rw [List.count_eq_zero.mpr hmem] at hcount
          exact Or.inl ⟨hstarted, hcount.trans hold.symm⟩
      · exact Or.inl ⟨hstarted, hzero.trans hold.symm⟩
    · have hset := due_set (x := x) (t := .running) hchild
      rw [dueBy_gathering hpoint, dueBy_gathering rfl]
      by_cases hsame : (j, y) = (i, x)
      · obtain ⟨rfl, rfl⟩ := Prod.mk.inj hsame
        refine Or.inr (Or.inr ⟨?_, ?_, ?_⟩)
        · simp [startedBy]
        · simp at hset ⊢
          omega
        · intro event
          rw [Function.update_self]
          exact not_mem_enter hx event
      · refine Or.inl ⟨?_, ?_⟩
        · simp [startedBy, List.count_append, hsame]
        · by_cases hji : j = i
          · have hyx : y ≠ x := fun hyx => hsame (by rw [hji, hyx])
            simp [hyx] at hset
            simp [hji, hset]
          · simp [hji]
    · have hset := due_set (x := x) (t := .done outcome) hchild
      simp only [Status.isScheduled_running, Status.isScheduled_done, Bool.false_eq_true, and_false,
        if_false, Nat.add_zero] at hset
      refine Or.inl ⟨rfl, ?_⟩
      rw [dueBy_gathering hpoint, dueBy_gathering rfl, hset]

variable {c c' : Bus κ E} {moves : List (Move (Proc κ E) (Action κ E))}

theorem started_set {s : ℕ → Emitter κ} (q' : Proc κ E) (h : c.procs[k]? = some q) :
    started ⟨s, c.procs.set k q'⟩ i x + startedBy i x q = started c i x + startedBy i x q' :=
  sum_map_set_add q' h

theorem due_set_proc {s : ℕ → Emitter κ} (q' : Proc κ E) (h : c.procs[k]? = some q) :
    due ⟨s, c.procs.set k q'⟩ i x + dueBy i x q = due c i x + dueBy i x q' :=
  sum_map_set_add q' h

theorem spawned (h : Begins (.spawn q : Move (Proc κ E) (Action κ E))) :
    startedBy i x q = 0 ∧ dueBy i x q = 0 := by
  cases q with
  | registrar => exact ⟨rfl, rfl⟩
  | emission p =>
    have hnew : p = .new p.event p.suppressErrors p.route := h
    rw [hnew]
    exact ⟨rfl, rfl⟩

theorem started_spawn (h : Begins (.spawn q : Move (Proc κ E) (Action κ E))) :
    started { c with procs := c.procs ++ [q] } i x = started c i x := by
  simp [started, (spawned h).1]

theorem due_spawn (h : Begins (.spawn q : Move (Proc κ E) (Action κ E))) :
    due { c with procs := c.procs ++ [q] } i x = due c i x := by
  simp [due, (spawned h).2]

/-- How a wrapper stands: it has at most one task, and is off the list once this has started. -/
structure Single (c : Bus κ E) (i : ℕ) (x : Listener κ) : Prop where
  tasks : started c i x + due c i x ≤ 1
  old : 0 < started c i x + due c i x → ∀ id, x.id? = some id → id < (c.shared i).made
  gone : 0 < started c i x → ∀ event, x ∉ (c.shared i).listeners event

theorem Single.spawn (h : Single c i x) (hbegins : Begins (.spawn q : Move (Proc κ E) (Action κ E))) :
    Single { c with procs := c.procs ++ [q] } i x := by
  constructor
  · rw [started_spawn hbegins, due_spawn hbegins]
    exact h.tasks
  · rw [started_spawn hbegins, due_spawn hbegins]
    exact h.old
  · rw [started_spawn hbegins]
    exact h.gone

omit [DecidableEq κ] in
theorem id_lt_made {event : EventType} (hmem : x ∈ em.listeners event) :
    ∀ id, x.id? = some id → id < em.made := by
  intro id hid
  cases x with
  | callback f => cases hid
  | wrapper id' e f =>
    obtain rfl := Option.some.inj hid
    exact (em.own event id' e f hmem).2

theorem Single.act (h : Single c i x) (hx : x.isWrapper = true) (hq : c.procs[k]? = some q)
    (hstarted : Started c (.act k a)) (hstep : program a c.shared q = some (es', q')) :
    Single ⟨es', c.procs.set k q'⟩ i x := by
  have hstartedSet := started_set (i := i) (x := x) (s := es') q' hq
  have hdueSet := due_set_proc (i := i) (x := x) (s := es') q' hq
  have hmade := step_made (i := i) hstep
  have htasks := h.tasks
  rcases step_effect (i := i) hstep hx with ⟨hsame, hsame'⟩ |
    ⟨calls, p, rfl, rfl, hsnapshots, hmem, hsame, hold, hone⟩ | ⟨hplus, hminus, hgone⟩
  · constructor
    · omega
    · intro hpos id hid
      exact Nat.lt_of_lt_of_le (h.old (by omega) id hid) hmade
    · intro hpos event hmem
      have hpos : 0 < started c i x := by omega
      rcases step_registered hstep hx hmem with hmem | hfresh
      · exact h.gone hpos event hmem
      · exact absurd (h.old (by omega) _ hfresh) (by omega)
  · have hdue := hstarted p i x hq hsnapshots hmem hx
    have hnone : started c i x = 0 := by
      by_contra hne
      exact h.gone (Nat.pos_of_ne_zero hne) _ hmem
    constructor
    · omega
    · intro _ id hid
      exact Nat.lt_of_lt_of_le (id_lt_made hmem id hid) hmade
    · intro hpos
      omega
  · constructor
    · omega
    · intro hpos id hid
      exact Nat.lt_of_lt_of_le (h.old (by omega) id hid) hmade
    · intro _
      exact hgone

theorem reach_single (h : Reach program Orderly ⟨es, []⟩ c) :
    ∀ i x, x.isWrapper = true → Single c i x := by
  refine h.invariant (I := fun c => ∀ i x, x.isWrapper = true → Single c i x) ?_ ?_ ?_
  · intro i x _
    constructor
    · exact Nat.zero_le _
    · intro hpos
      cases hpos
    · intro hpos
      cases hpos
  · intro c q ih hok i x hx
    exact (ih i x hx).spawn hok.1
  · intro c k a q s q' ih hok hq hstep i x hx
    exact (ih i x hx).act hx hq hok.2 hstep

/-- No step takes a task of a wrapper away but the one that starts it. -/
theorem tasks_le_apply {m : Move (Proc κ E) (Action κ E)} (hbegins : Begins m)
    (happ : apply program c m = some c') (hx : x.isWrapper = true) :
    started c i x + due c i x ≤ started c' i x + due c' i x := by
  cases m with
  | spawn q =>
    obtain rfl := apply_spawn happ
    exact Nat.le_of_eq (by rw [started_spawn hbegins, due_spawn hbegins])
  | act k a =>
    obtain ⟨q, s, q', hq, hstep, rfl⟩ := apply_act happ
    have hstartedSet := started_set (i := i) (x := x) (s := s) q' hq
    have hdueSet := due_set_proc (i := i) (x := x) (s := s) q' hq
    rcases step_effect (i := i) hstep hx with ⟨hsame, hsame'⟩ |
      ⟨calls, p, -, -, -, -, hsame, hold, hone⟩ | ⟨hplus, hminus, -⟩
    · omega
    · omega
    · omega

theorem tasks_le (hbegins : ∀ m ∈ moves, Begins m) (hrun : run program c moves = some c')
    (hx : x.isWrapper = true) : started c i x + due c i x ≤ started c' i x + due c' i x := by
  induction moves generalizing c with
  | nil =>
    obtain rfl := Option.some.inj hrun
    exact Nat.le_refl _
  | cons m rest ih =>
    unfold run at hrun
    split at hrun
    · cases hrun
    · next c₁ happ =>
      refine Nat.le_trans (tasks_le_apply (hbegins m List.mem_cons_self) happ hx) ?_
      exact ih (fun m hm => hbegins m (List.mem_cons_of_mem _ hm)) hrun

/-- A snapshot that holds a wrapper whose task was not started makes a second task of it. -/
theorem tasks_two (hq : c.procs[k]? = some (.emission p))
    (happ : apply program c (.act k (.proceeds calls)) = some c')
    (hsnapshots : Snapshots c.shared calls p i) (hmem : x ∈ (c.shared i).listeners p.event)
    (hx : x.isWrapper = true) (hdue : due c i x ≠ 0) : 2 ≤ started c' i x + due c' i x := by
  obtain ⟨q, s, q', hq', hstep, rfl⟩ := apply_act happ
  obtain rfl := Option.some.inj (hq.symm.trans hq')
  obtain ⟨p', hproceed, heq⟩ := Option.map_eq_some_iff.mp hstep
  obtain ⟨rfl, rfl⟩ := Prod.mk.inj heq
  obtain ⟨-, hold, ⟨-, hcount⟩ | ⟨hnot, -⟩⟩ := proceed_effect hproceed i hx
  · rw [count_wrapper hx hmem] at hcount
    have hdueSet := due_set_proc (i := i) (x := x) (s := c.shared) (.emission p') hq
    omega
  · exact absurd hsnapshots hnot

def AllEnded (c : Bus κ E) : Prop := ∀ p, .emission p ∈ c.procs → p.Ended

theorem due_ended (h : AllEnded c) : due c i x = 0 := by
  apply List.sum_eq_zero_iff_forall_eq_nat.mpr
  intro n hn
  obtain ⟨q, hq, rfl⟩ := List.mem_map.mp hn
  cases q with
  | registrar => rfl
  | emission p => exact dueBy_elsewhere fun j children => (h p hq).not_gathering

theorem orderly_of_onceOnly (hbegins : ∀ m ∈ moves, Begins m) (hrun : run program c moves = some c')
    (hended : AllEnded c') (honce : OnceOnly c') : Allowed program Orderly c moves := by
  induction moves generalizing c with
  | nil => trivial
  | cons m rest ih =>
    unfold run at hrun
    split at hrun
    · cases hrun
    · next c₁ happ =>
      have hrest : ∀ m ∈ rest, Begins m := fun m hm => hbegins m (List.mem_cons_of_mem _ hm)
      refine ⟨⟨hbegins m List.mem_cons_self, ?_⟩, ?_⟩
      · unfold Started
        split
        · intro p i x hq hsnapshots hmem hx
          by_contra hdue
          have htwo := tasks_two hq happ hsnapshots hmem hx hdue
          have hle := tasks_le (i := i) hrest hrun hx
          have hone := honce i x hx
          rw [due_ended hended] at hle
          omega
        · trivial
      · intro c₂ happ₂
        obtain rfl := Option.some.inj (happ.symm.trans happ₂)
        exact ih hrest hrun

/-- In a run whose snapshots hold no wrapper with a task that was not started, what `once` has
registered is started at most once. When all emissions of a run have ended, it was started at most
once in no other run. -/
theorem once_only (hbegins : ∀ m ∈ moves, Begins m) (hrun : run program ⟨es, []⟩ moves = some c) :
    (Allowed program Orderly ⟨es, []⟩ moves → Throughout program OnceOnly ⟨es, []⟩ moves) ∧
      (AllEnded c → Throughout program OnceOnly ⟨es, []⟩ moves →
        Allowed program Orderly ⟨es, []⟩ moves) := by
  constructor
  · apply throughout_of_allowed _ Reach.refl
    intro c h i x hx
    have htasks := (reach_single h i x hx).tasks
    omega
  · intro hended honce
    exact orderly_of_onceOnly hbegins hrun hended (honce.last hrun)

/-- Two emissions take their snapshots before a task has started: the wrapper is in both. -/
theorem once_twice : ∃ c : Bus ℕ ℕ, run program ⟨fun _ => Emitter.new, []⟩
    [.spawn .registrar, .act 0 (.changes 0 (.once (.torrent .completed) 7)),
      .spawn (.emission (.new (.torrent .completed) false [0])),
      .spawn (.emission (.new (.torrent .completed) false [0])),
      .act 1 (.proceeds fun _ => none), .act 2 (.proceeds fun _ => none),
      .act 1 (.starts 0), .act 2 (.starts 0)] = some c ∧ ¬ OnceOnly c :=
  ⟨_, rfl, fun h => absurd (h 0 (.wrapper 0 (.torrent .completed) 7) rfl) (by decide)⟩

theorem once_only_in_turn : ∃ (moves : List (Move (Proc ℕ ℕ) (EventEmitter.Action ℕ ℕ))) (c : Bus ℕ ℕ),
    run program ⟨fun _ => Emitter.new, []⟩ moves = some c ∧
      started c 0 (.wrapper 0 (.torrent .completed) 7) = 1 ∧
      (Allowed program Orderly ⟨fun _ => Emitter.new, []⟩ moves →
        Throughout program OnceOnly ⟨fun _ => Emitter.new, []⟩ moves) ∧
      (AllEnded c → Throughout program OnceOnly ⟨fun _ => Emitter.new, []⟩ moves →
        Allowed program Orderly ⟨fun _ => Emitter.new, []⟩ moves) :=
  ⟨[.spawn .registrar, .act 0 (.changes 0 (.once (.torrent .completed) 7)),
    .spawn (.emission (.new (.torrent .completed) false [0])),
    .act 1 (.proceeds fun _ => none), .act 1 (.starts 0), .act 1 (.finishes 0 none),
    .act 1 (.proceeds fun _ => none)], _, rfl, by decide,
    once_only (by simp [Begins, Emission.new]) rfl⟩

end OnceListeners
