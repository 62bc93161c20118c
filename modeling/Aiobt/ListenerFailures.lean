import Aiobt.EventEmitter

/-! # Failing listeners

A listener fails when it is called or while its task runs. Any number of emissions, on any chains of
emitters, while callbacks are registered and unregistered. -/
namespace ListenerFailures

open InterleavedProcesses EventEmitter

variable {κ E : Type} [DecidableEq κ]

def reached (p : Emission κ E) : List (ℕ × List (Child κ E)) :=
  match p.point with
  | .gathering i children => p.past ++ [(i, children)]
  | _ => p.past

def listenersOf (turns : List (ℕ × List (Child κ E))) : List (ℕ × Listener κ) :=
  turns.flatMap fun t => t.2.map fun c => (t.1, c.listener)

def startedOf (turns : List (ℕ × List (Child κ E))) : List (ℕ × Listener κ) :=
  turns.flatMap fun t => begun t.1 t.2

def AllDone (turns : List (ℕ × List (Child κ E))) : Prop :=
  ∀ t ∈ turns, ∀ c ∈ t.2, c.status.isDone = true

/-- Every listener that the emission has met was started once and has finished. -/
def Complete (p : Emission κ E) : Prop := AllDone p.past ∧ p.starts.Perm (listenersOf p.past)

def Clean (turns : List (ℕ × List (Child κ E))) : Prop :=
  ∀ t ∈ turns, ∀ c ∈ t.2, c.status.error? = none

/-- An emission that returns has visited all emitters of its route, and returns although a listener
has raised only where it is to suppress errors. One that raises is not to suppress errors, raises
what a listener has raised, and leaves out no listener. -/
def Isolated (p : Emission κ E) : Prop :=
  match p.point with
  | .returned =>
    p.past.map Prod.fst = p.route ∧ Complete p ∧ (p.suppressErrors = false → Clean p.past)
  | .raised error unvisited =>
    p.suppressErrors = false ∧ Complete p ∧
      (∃ t ∈ p.past, ∃ c ∈ t.2, c.status = .done (some error)) ∧
      p.past.map Prod.fst ++ unvisited.map Prod.fst = p.route ∧ ∀ u ∈ unvisited, u.2 = []
  | _ => p.starts.Subperm (listenersOf (reached p))

def AllIsolated (c : Config (ℕ → Emitter κ) (Proc κ E)) : Prop :=
  ∀ p, .emission p ∈ c.procs → Isolated p

def Unheard (es : ℕ → Emitter κ) (event : EventType) (emitters : List ℕ) : Prop :=
  ∀ i ∈ emitters, (es i).listeners event = []

/-- The calls of the listeners ahead do not raise; or the only listener that is left is called and
raises, and errors are not suppressed. -/
def CallsEnd (es : ℕ → Emitter κ) (calls : ℕ → Option E) (p : Emission κ E) : Prop :=
  ∀ i rest, p.ahead.dropWhile (fun j => ((es j).listeners p.event).isEmpty) = i :: rest →
    (callAll calls 0 ((es i).listeners p.event)).2 = none ∨
      ((es i).listeners p.event).length = 1 ∧ p.suppressErrors = false ∧ Unheard es p.event rest

/-- What the step of an emission raises leaves out no listener. -/
def Contained (es : ℕ → Emitter κ) (calls : ℕ → Option E) (p : Emission κ E) : Prop :=
  match p.point with
  | .starting => CallsEnd es calls p
  | .gathering _ children =>
    if p.suppressErrors = false ∧ (firstError children).isSome then Unheard es p.event p.ahead
    else CallsEnd es calls p
  | _ => True

def Harmless (c : Config (ℕ → Emitter κ) (Proc κ E)) : Move (Proc κ E) (Action κ E) → Prop
  | .act k (.proceeds calls) => ∀ p, c.procs[k]? = some (.emission p) → Contained c.shared calls p
  | m => Begins m

/-- The emitters are reached in the order of the route, and what was started is what the tasks
say. -/
structure Recorded (p : Emission κ E) : Prop where
  route : (reached p).map Prod.fst ++ p.ahead = p.route
  starts : p.starts.Perm (startedOf (reached p))
  returned : p.point = .returned → p.ahead = []
  raised : ∀ error unvisited, p.point = .raised error unvisited → unvisited.map Prod.fst = p.ahead

variable {a : Action κ E} {es es' : ℕ → Emitter κ} {p p' : Emission κ E} {calls : ℕ → Option E}
  {i k : ℕ} {children : List (Child κ E)} {turns : List (ℕ × List (Child κ E))}

section

omit [DecidableEq κ]

theorem reached_gathering (h : p.point = .gathering i children) :
    reached p = p.past ++ [(i, children)] := by
  simp only [reached, h]

theorem reached_elsewhere (h : ∀ i children, p.point ≠ .gathering i children) :
    reached p = p.past := by
  unfold reached
  split
  · next i children hpoint => exact absurd hpoint (h i children)
  · rfl

theorem startedOf_append (turns : List (ℕ × List (Child κ E))) (t : ℕ × List (Child κ E)) :
    startedOf (turns ++ [t]) = startedOf turns ++ begun t.1 t.2 := by
  simp [startedOf]

theorem startedOf_quiet (turns : List (ℕ × List (Child κ E))) (quiet : List ℕ) :
    startedOf (turns ++ quiet.map fun i => (i, [])) = startedOf turns := by
  induction quiet generalizing turns with
  | nil => simp
  | cons i quiet ih =>
    rw [List.map_cons, List.append_cons, ih, startedOf_append]
    simp [begun]

theorem startedOf_done (h : AllDone turns) : startedOf turns = listenersOf turns := by
  unfold startedOf listenersOf
  apply List.flatMap_congr
  intro t ht
  have hall : t.2.filter (fun c => !c.status.isScheduled) = t.2 := by
    apply List.filter_eq_self.mpr
    intro c hc
    rw [Status.not_scheduled (h t ht c hc)]
    rfl
  rw [begun, hall]

theorem begun_cons_scheduled {x : Listener κ} :
    begun i (⟨x, .scheduled⟩ :: children) = begun i children := rfl

theorem begun_cons {c : Child κ E} (h : c.status.isScheduled = false) :
    begun i (c :: children) = (i, c.listener) :: begun i children := by
  simp [begun, h]

theorem begun_start {x : Listener κ} (h : children[k]? = some ⟨x, .scheduled⟩) :
    (begun i (children.set k ⟨x, .running⟩)).Perm (begun i children ++ [(i, x)]) := by
  induction children generalizing k with
  | nil => cases h
  | cons c children ih =>
    cases k with
    | zero =>
      obtain rfl : c = ⟨x, .scheduled⟩ := by simpa using h
      rw [List.set_cons_zero, begun_cons rfl, begun_cons_scheduled]
      exact (List.perm_append_singleton _ _).symm
    | succ k =>
      have hrec := ih (show children[k]? = some ⟨x, .scheduled⟩ by simpa using h)
      rw [List.set_cons_succ]
      cases hc : c.status.isScheduled with
      | true => simpa [begun, hc] using hrec
      | false =>
        rw [begun_cons hc, begun_cons hc]
        exact hrec.cons _

theorem begun_finish {x : Listener κ} {outcome : Option E}
    (h : children[k]? = some ⟨x, .running⟩) :
    begun i (children.set k ⟨x, .done outcome⟩) = begun i children := by
  induction children generalizing k with
  | nil => cases h
  | cons c children ih =>
    cases k with
    | zero =>
      obtain rfl : c = ⟨x, .running⟩ := by simpa using h
      rfl
    | succ k =>
      have hrec := ih (show children[k]? = some ⟨x, .running⟩ by simpa using h)
      rw [List.set_cons_succ]
      cases hc : c.status.isScheduled with
      | true => simpa [begun, hc] using hrec
      | false => rw [begun_cons hc, begun_cons hc, hrec]

theorem started_subperm (turns : List (ℕ × List (Child κ E))) :
    (startedOf turns).Subperm (listenersOf turns) := by
  apply List.Sublist.subperm
  induction turns with
  | nil => exact List.Sublist.refl _
  | cons t turns ih =>
    simp only [startedOf, listenersOf, List.flatMap_cons]
    exact (List.filter_sublist.map _).append ih

theorem Recorded.visit (es : ℕ → Emitter κ) (calls : ℕ → Option E) {ahead : List ℕ}
    (hroute : p.past.map Prod.fst ++ ahead = p.route) (hstarts : p.starts.Perm (startedOf p.past)) :
    Recorded (EventEmitter.visit es calls p ahead) := by
  obtain ⟨quiet, -, ⟨rfl, hvisit⟩ | ⟨i, rest, rfl, -, hvisit⟩⟩ := visit_cases es calls p ahead
  · rw [hvisit]
    refine ⟨?_, ?_, fun _ => rfl, by simp⟩
    · simpa [reached, Emission.passes, Function.comp_def] using hroute
    · rw [reached_elsewhere (by simp)]
      exact hstarts.trans (.of_eq (startedOf_quiet _ _).symm)
  · rw [hvisit]
    rcases call_cases es calls (p.passes quiet) i rest with
      ⟨-, hcall⟩ | ⟨error, before, f, after, -, -, hcall⟩
    · rw [hcall]
      refine ⟨?_, ?_, by simp, by simp⟩
      · simpa [reached, Emission.passes, Function.comp_def] using hroute
      · rw [reached_gathering rfl, startedOf_append, begun_scheduled, List.append_nil]
        exact hstarts.trans (.of_eq (startedOf_quiet _ _).symm)
    · rw [hcall]
      refine ⟨?_, ?_, by simp, ?_⟩
      · simpa [reached, Emission.passes, Function.comp_def] using hroute
      · rw [reached_elsewhere (by simp), startedOf_append, begun_raising]
        exact (hstarts.trans (.of_eq (startedOf_quiet _ _).symm)).append_right _
      · intro e unvisited hpoint
        obtain ⟨-, rfl⟩ := Point.raised.inj hpoint
        simp [registered, Function.comp_def]

theorem Recorded.collect (es : ℕ → Emitter κ) (calls : ℕ → Option E)
    (hpoint : p.point = .gathering i children) (h : Recorded p) :
    Recorded (EventEmitter.collect es calls p i children) := by
  obtain ⟨hroute, hstarts, -, -⟩ := h
  rw [reached_gathering hpoint] at hroute hstarts
  unfold EventEmitter.collect
  split
  · refine ⟨?_, ?_, by simp, ?_⟩
    · rw [reached_elsewhere (by simp)]
      exact hroute
    · rw [reached_elsewhere (by simp)]
      exact hstarts
    · intro e unvisited hpoint
      obtain ⟨-, rfl⟩ := Point.raised.inj hpoint
      simp [registered, Function.comp_def]
  · exact Recorded.visit es calls hroute hstarts

end

theorem Recorded.step (h : Recorded p) (hstep : program a es (.emission p) = some (es', .emission p')) :
    Recorded p' := by
  rcases step_cases hstep with ⟨_, _, hreg, _⟩ | ⟨p₁, p₂, hp, hp', hcases⟩
  · cases hreg
  · cases hp
    cases hp'
    rcases hcases with ⟨calls, -, rfl, hproceed⟩ | ⟨i, children, k, x, hpoint, hchild, rfl, rfl⟩ |
      ⟨i, children, k, x, outcome, hpoint, hchild, rfl, rfl⟩
    · rcases proceed_cases hproceed with ⟨hpoint, rfl⟩ | ⟨i, children, hpoint, -, rfl⟩
      · obtain ⟨hroute, hstarts, -, -⟩ := h
        rw [reached_elsewhere (by simp [hpoint])] at hroute hstarts
        exact Recorded.visit _ _ hroute hstarts
      · exact h.collect _ _ hpoint
    · obtain ⟨hroute, hstarts, -, -⟩ := h
      rw [reached_gathering hpoint] at hroute hstarts
      refine ⟨?_, ?_, by simp, by simp⟩
      · rw [reached_gathering rfl]
        simpa using hroute
      · rw [reached_gathering rfl, startedOf_append]
        rw [startedOf_append] at hstarts
        refine (hstarts.append_right _).trans ?_
        rw [List.append_assoc]
        exact (begun_start hchild).symm.append_left _
    · obtain ⟨hroute, hstarts, -, -⟩ := h
      rw [reached_gathering hpoint] at hroute hstarts
      refine ⟨?_, ?_, by simp, by simp⟩
      · rw [reached_gathering rfl]
        simpa using hroute
      · rw [reached_gathering rfl, startedOf_append, begun_finish hchild]
        rw [startedOf_append] at hstarts
        exact hstarts

omit [DecidableEq κ] in
theorem Recorded.isolated (h : Recorded p) (hnot : ¬ p.Ended) : Isolated p := by
  have hsub : p.starts.Subperm (listenersOf (reached p)) :=
    h.starts.subperm.trans (started_subperm _)
  unfold Isolated
  split
  · next hpoint => exact absurd (Or.inl hpoint) hnot
  · next error unvisited hpoint => exact absurd (Or.inr ⟨error, unvisited, hpoint⟩) hnot
  · exact hsub

omit [DecidableEq κ] in
theorem Recorded.complete (h : Recorded p) (hended : p.Ended) (hdone : AllDone p.past) : Complete p := by
  have hstarts := h.starts
  rw [reached_elsewhere fun _ _ => hended.not_gathering, startedOf_done hdone] at hstarts
  exact ⟨hdone, hstarts⟩

omit [DecidableEq κ] in
theorem Recorded.isolated_returned (h : Recorded p) (hpoint : p.point = .returned)
    (hdone : AllDone p.past) (hclean : p.suppressErrors = false → Clean p.past) : Isolated p := by
  have hroute := h.route
  rw [reached_elsewhere (by simp [hpoint]), h.returned hpoint, List.append_nil] at hroute
  simp only [Isolated, hpoint]
  exact ⟨hroute, h.complete (Or.inl hpoint) hdone, hclean⟩

omit [DecidableEq κ] in
theorem Recorded.isolated_raised {error : E} {unvisited : List (ℕ × List (Listener κ))}
    (h : Recorded p) (hpoint : p.point = .raised error unvisited) (hdone : AllDone p.past)
    (hsuppress : p.suppressErrors = false)
    (herror : ∃ t ∈ p.past, ∃ c ∈ t.2, c.status = .done (some error))
    (hunheard : ∀ u ∈ unvisited, u.2 = []) : Isolated p := by
  have hroute := h.route
  rw [reached_elsewhere (by simp [hpoint]), ← h.raised error unvisited hpoint] at hroute
  simp only [Isolated, hpoint]
  exact ⟨hsuppress, h.complete (Or.inr ⟨error, unvisited, hpoint⟩) hdone, herror, hroute, hunheard⟩

omit [DecidableEq κ] in
theorem unheard_registered {event : EventType} {emitters : List ℕ} :
    (∀ u ∈ registered es event emitters, u.2 = []) ↔ Unheard es event emitters := by
  simp [registered, Unheard]

structure Sound (p : Emission κ E) : Prop where
  recorded : Recorded p
  done : AllDone p.past
  isolated : Isolated p
  clean : p.suppressErrors = false → ¬ p.Ended → Clean p.past

omit [DecidableEq κ] in
theorem drop_ahead {event : EventType} {quiet rest : List ℕ}
    (hquiet : ∀ j ∈ quiet, (es j).listeners event = []) (hsome : (es i).listeners event ≠ []) :
    (quiet ++ i :: rest).dropWhile (fun j => ((es j).listeners event).isEmpty) = i :: rest := by
  rw [List.dropWhile_append_of_pos (by simpa using hquiet), List.dropWhile_cons_of_neg (by simpa using hsome)]

omit [DecidableEq κ] in
theorem allDone_passes (quiet : List ℕ) (h : AllDone p.past) : AllDone (p.passes quiet).past := by
  intro t ht c hc
  rcases List.mem_append.mp ht with ht | ht
  · exact h t ht c hc
  · obtain ⟨i, -, rfl⟩ := List.mem_map.mp ht
    cases hc

omit [DecidableEq κ] in
theorem clean_passes {quiet : List ℕ} (h : Clean p.past) : Clean (p.passes quiet).past := by
  intro t ht c hc
  rcases List.mem_append.mp ht with ht | ht
  · exact h t ht c hc
  · obtain ⟨i, -, rfl⟩ := List.mem_map.mp ht
    cases hc

omit [DecidableEq κ] in
theorem not_ended_gathering (h : p.point = .gathering i children) : ¬ p.Ended :=
  fun hended => hended.not_gathering h

omit [DecidableEq κ] in
theorem raising_alone {f : κ} {before after : List (Listener κ)} {l : List (Listener κ)}
    (hsplit : l = before ++ .callback f :: after) (hlength : l.length = 1) :
    before = [] ∧ after = [] := by
  rw [hsplit, List.length_append, List.length_cons] at hlength
  exact ⟨List.length_eq_zero_iff.mp (by omega), List.length_eq_zero_iff.mp (by omega)⟩

omit [DecidableEq κ] in
theorem sound_visit (hroute : p.past.map Prod.fst ++ p.ahead = p.route)
    (hstarts : p.starts.Perm (startedOf p.past)) (hdone : AllDone p.past)
    (hclean : p.suppressErrors = false → Clean p.past)
    (hends : CallsEnd es calls p) : Sound (visit es calls p p.ahead) := by
  have hrecorded := Recorded.visit es calls hroute hstarts
  obtain ⟨quiet, hquiet, ⟨-, hvisit⟩ | ⟨i, rest, hahead, hsome, hvisit⟩⟩ :=
    visit_cases es calls p p.ahead
  · rw [hvisit] at hrecorded ⊢
    have hdone := allDone_passes quiet hdone
    exact ⟨hrecorded, hdone,
      hrecorded.isolated_returned rfl hdone fun hsuppress => clean_passes (hclean hsuppress),
      fun _ hnot => absurd (Or.inl rfl) hnot⟩
  · rw [hvisit] at hrecorded ⊢
    have hdone := allDone_passes quiet hdone
    rcases call_cases es calls (p.passes quiet) i rest with
      ⟨-, hcall⟩ | ⟨error, before, f, after, hsplit, hcalls, hcall⟩
    · rw [hcall] at hrecorded ⊢
      exact ⟨hrecorded, hdone, hrecorded.isolated (not_ended_gathering rfl),
        fun hsuppress _ => clean_passes (hclean hsuppress)⟩
    · rcases hends i rest (hahead ▸ drop_ahead hquiet hsome) with
        hnone | ⟨hlength, hsuppress, hunheard⟩
      · exact absurd (hcalls.symm.trans hnone) (by simp)
      · obtain ⟨rfl, rfl⟩ := raising_alone hsplit hlength
        rw [hcall] at hrecorded ⊢
        have hall : AllDone ((p.passes quiet).past ++
            [(i, ([⟨.callback f, .done (some error)⟩] : List (Child κ E)))]) := by
          intro t ht c hc
          rcases List.mem_append.mp ht with ht | ht
          · exact hdone t ht c hc
          · obtain rfl := List.mem_singleton.mp ht
            obtain rfl := List.mem_singleton.mp hc
            rfl
        refine ⟨hrecorded, hall, hrecorded.isolated_raised rfl hall hsuppress ?_
          (unheard_registered.mpr hunheard), fun _ hnot => absurd (Or.inr ⟨_, _, rfl⟩) hnot⟩
        exact ⟨_, List.mem_append_right _ (List.mem_singleton_self _), _,
          List.mem_singleton_self _, rfl⟩

omit [DecidableEq κ] in
theorem firstError_mem {error : E} (h : firstError children = some error) :
    ∃ c ∈ children, c.status = .done (some error) := by
  obtain ⟨c, hc, herror⟩ := List.exists_of_findSome?_eq_some h
  refine ⟨c, hc, ?_⟩
  cases hstatus : c.status with
  | scheduled => simp [hstatus, Status.error?] at herror
  | running => simp [hstatus, Status.error?] at herror
  | done outcome => rw [show outcome = some error by simpa [hstatus, Status.error?] using herror]

omit [DecidableEq κ] in
theorem sound_collect (h : Sound p) (hpoint : p.point = .gathering i children)
    (hchildren : ∀ c ∈ children, c.status.isDone = true) (hcontained : Contained es calls p) :
    Sound (collect es calls p i children) := by
  have hrecorded := h.recorded.collect es calls hpoint
  have hroute := h.recorded.route
  have hstarts := h.recorded.starts
  rw [reached_gathering hpoint] at hroute hstarts
  have hall : AllDone (p.past ++ [(i, children)]) := by
    intro t ht c hc
    rcases List.mem_append.mp ht with ht | ht
    · exact h.done t ht c hc
    · obtain rfl := List.mem_singleton.mp ht
      exact hchildren c hc
  simp only [Contained, hpoint] at hcontained
  unfold collect at hrecorded ⊢
  split at hrecorded
  · next error herror hsuppress =>
    rw [if_pos ⟨hsuppress, by rw [herror]; rfl⟩] at hcontained
    obtain ⟨c, hc, hstatus⟩ := firstError_mem herror
    refine ⟨hrecorded, hall, hrecorded.isolated_raised rfl hall hsuppress ?_
      (unheard_registered.mpr hcontained), fun _ hnot => absurd (Or.inr ⟨_, _, rfl⟩) hnot⟩
    exact ⟨_, List.mem_append_right _ (List.mem_singleton_self _), c, hc, hstatus⟩
  · next hon =>
    rw [if_neg] at hcontained
    · refine sound_visit hroute hstarts hall ?_ hcontained
      intro hsuppress t ht c hc
      rcases List.mem_append.mp ht with ht | ht
      · exact h.clean hsuppress (not_ended_gathering hpoint) t ht c hc
      · obtain rfl := List.mem_singleton.mp ht
        cases herror : firstError children with
        | some error => exact absurd hsuppress (hon error herror)
        | none => exact List.findSome?_eq_none_iff.mp herror c hc
    · rintro ⟨hsuppress, hsome⟩
      obtain ⟨error, herror⟩ := Option.isSome_iff_exists.mp hsome
      exact hon error herror hsuppress

theorem Sound.step (h : Sound p) (hstep : program a es (.emission p) = some (es', .emission p'))
    (hcontained : ∀ calls, a = .proceeds calls → Contained es calls p) : Sound p' := by
  have hrecorded := h.recorded.step hstep
  rcases step_cases hstep with ⟨_, _, hreg, _⟩ | ⟨p₁, p₂, hp, hp', hcases⟩
  · cases hreg
  · cases hp
    cases hp'
    rcases hcases with ⟨calls, rfl, rfl, hproceed⟩ | ⟨i, children, k, x, hpoint, hchild, rfl, rfl⟩ |
      ⟨i, children, k, x, outcome, hpoint, hchild, rfl, rfl⟩
    · have hcontained := hcontained calls rfl
      rcases proceed_cases hproceed with ⟨hpoint, rfl⟩ | ⟨i, children, hpoint, hdone, rfl⟩
      · have hroute := h.recorded.route
        have hstarts := h.recorded.starts
        rw [reached_elsewhere (by simp [hpoint])] at hroute hstarts
        simp only [Contained, hpoint] at hcontained
        refine sound_visit hroute hstarts h.done (fun hsuppress => h.clean hsuppress ?_) hcontained
        rintro (h | ⟨error, l, h⟩)
        · cases hpoint.symm.trans h
        · cases hpoint.symm.trans h
      · exact sound_collect h hpoint hdone hcontained
    · exact ⟨hrecorded, h.done, hrecorded.isolated (not_ended_gathering rfl),
        fun hsuppress _ => h.clean hsuppress (not_ended_gathering hpoint)⟩
    · exact ⟨hrecorded, h.done, hrecorded.isolated (not_ended_gathering rfl),
        fun hsuppress _ => h.clean hsuppress (not_ended_gathering hpoint)⟩

omit [DecidableEq κ] in
theorem scheduled_not_done {l : List (Listener κ)}
    (h : ∀ c ∈ l.map (Child.scheduled (E := E)), c.status.isDone = true) : l = [] := by
  cases l with
  | nil => rfl
  | cons x l => cases h (Child.scheduled x) List.mem_cons_self

omit [DecidableEq κ] in
theorem callsEnd_of_isolated (h : Isolated (visit es calls p p.ahead)) : CallsEnd es calls p := by
  intro i rest hdrop
  obtain ⟨quiet, hquiet, ⟨hahead, -⟩ | ⟨j, rest', hahead, hsome, hvisit⟩⟩ :=
    visit_cases es calls p p.ahead
  · have hall : p.ahead.dropWhile (fun j => ((es j).listeners p.event).isEmpty) = [] := by
      rw [hahead, ← List.append_nil quiet, List.dropWhile_append_of_pos (by simpa using hquiet)]
      rfl
    rw [hall] at hdrop
    cases hdrop
  · rw [hahead, drop_ahead hquiet hsome] at hdrop
    obtain ⟨rfl, rfl⟩ := List.cons.inj hdrop
    rcases call_cases es calls (p.passes quiet) j rest' with
      ⟨hcalls, -⟩ | ⟨error, before, f, after, hsplit, -, hcall⟩
    · exact Or.inl hcalls
    · rw [hvisit, hcall] at h
      obtain ⟨hsuppress, ⟨hdone, -⟩, -, -, hunheard⟩ := h
      have hlast := hdone _ (List.mem_append_right _ (List.mem_singleton_self _))
      obtain rfl := scheduled_not_done fun c hc => hlast c (List.mem_append_left _ hc)
      obtain rfl := scheduled_not_done fun c hc =>
        hlast c (List.mem_append_right _ (List.mem_cons_of_mem _ hc))
      have hsplit : (es j).listeners p.event = _ := hsplit
      exact Or.inr ⟨by rw [hsplit]; rfl, hsuppress, unheard_registered.mp hunheard⟩

omit [DecidableEq κ] in
/-- Where a step does not contain what it raises, the emission is not isolated after it. -/
theorem contained_of_isolated (hproceed : proceed es calls p = some p') (h : Isolated p') :
    Contained es calls p := by
  rcases proceed_cases hproceed with ⟨hpoint, rfl⟩ | ⟨i, children, hpoint, hdone, rfl⟩
  · simp only [Contained, hpoint]
    exact callsEnd_of_isolated h
  · simp only [Contained, hpoint]
    unfold collect at h
    split at h
    · next error herror hsuppress =>
      rw [if_pos ⟨hsuppress, by rw [herror]; rfl⟩]
      exact unheard_registered.mp h.2.2.2.2
    · next hon =>
      rw [if_neg]
      · exact callsEnd_of_isolated (p := { p with past := p.past ++ [(i, children)] }) h
      · rintro ⟨hsuppress, hsome⟩
        obtain ⟨error, herror⟩ := Option.isSome_iff_exists.mp hsome
        exact hon error herror hsuppress

variable {c c' : Config (ℕ → Emitter κ) (Proc κ E)} {moves : List (Move (Proc κ E) (Action κ E))}

omit [DecidableEq κ] in
theorem sound_new (event : EventType) (suppressErrors : Bool) (route : List ℕ) :
    Sound (Emission.new (κ := κ) (E := E) event suppressErrors route) := by
  have hrecorded : Recorded (Emission.new (κ := κ) (E := E) event suppressErrors route) :=
    ⟨rfl, List.Perm.refl _, by simp [Emission.new], by simp [Emission.new]⟩
  have hdone : AllDone (Emission.new (κ := κ) (E := E) event suppressErrors route).past := by
    intro t ht
    cases ht
  refine ⟨hrecorded, hdone, hrecorded.isolated ?_, fun _ _ t ht => by cases ht⟩
  rintro (h | ⟨error, l, h⟩)
  · cases h
  · cases h

theorem reach_sound (h : Reach program Harmless ⟨es, []⟩ c) :
    ∀ p, .emission p ∈ c.procs → Sound p := by
  refine h.invariant (I := fun c => ∀ p, .emission p ∈ c.procs → Sound p) ?_ ?_ ?_
  · intro p hp
    cases hp
  · intro c q ih hok p hp
    rcases List.mem_append.mp hp with hp | hp
    · exact ih p hp
    · obtain rfl := List.mem_singleton.mp hp
      have hnew : p = .new p.event p.suppressErrors p.route := hok
      rw [hnew]
      exact sound_new _ _ _
  · intro c k a q s q' ih hok hq hstep p hp
    rcases mem_set_cases hp with rfl | hp
    · rcases step_cases hstep with ⟨_, _, -, hreg, _⟩ | ⟨p₁, p₂, rfl, hp₂, -⟩
      · cases hreg
      · cases hp₂
        refine (ih p₁ (List.mem_of_getElem? hq)).step hstep ?_
        rintro calls rfl
        exact hok p₁ hq
    · exact ih p hp

theorem harmless_of_isolated {m : Move (Proc κ E) (Action κ E)} (hbegins : Begins m)
    (happ : apply program c m = some c') (h : AllIsolated c') : Harmless c m := by
  unfold Harmless
  split
  · next k calls =>
    intro p hp
    obtain ⟨q, s, q', hq, hstep, rfl⟩ := apply_act happ
    obtain rfl := Option.some.inj (hp.symm.trans hq)
    obtain ⟨p', hproceed, heq⟩ := Option.map_eq_some_iff.mp hstep
    obtain ⟨rfl, rfl⟩ := Prod.mk.inj heq
    refine contained_of_isolated hproceed (h p' ?_)
    exact List.mem_of_getElem? (List.getElem?_set_self (List.getElem?_eq_some_iff.mp hq).1)
  · exact hbegins

def stage (p : Emission κ E) : ℕ :=
  match p.point with
  | .returned => 0
  | .raised _ _ => 0
  | _ => p.ahead.length + 1

def stepsLeft (c : Child κ E) : ℕ :=
  match c.status with
  | .scheduled => 2
  | .running => 1
  | .done _ => 0

def work (p : Emission κ E) : ℕ :=
  match p.point with
  | .gathering _ children => (children.map stepsLeft).sum
  | _ => 0

/-- An emission that has not ended can take a step, the tasks that are running included. -/
theorem can_step (es : ℕ → Emitter κ) (h : ¬ p.Ended) :
    ∃ a next, program a es (.emission p) = some next := by
  cases hpoint : p.point with
  | returned => exact absurd (Or.inl hpoint) h
  | raised error unvisited => exact absurd (Or.inr ⟨error, unvisited, hpoint⟩) h
  | starting =>
    refine ⟨.proceeds fun _ => none, (es, .emission (visit es (fun _ => none) p p.ahead)), ?_⟩
    rw [program, proceed, hpoint]
    rfl
  | gathering i children =>
    by_cases hdone : ∀ c ∈ children, c.status.isDone = true
    · refine ⟨.proceeds fun _ => none, (es, .emission (collect es (fun _ => none) p i children)), ?_⟩
      simp [program, proceed, hpoint, List.all_eq_true.mpr hdone]
    · push Not at hdone
      obtain ⟨⟨x, status⟩, hmem, hnot⟩ := hdone
      obtain ⟨k, hk⟩ := List.mem_iff_getElem?.mp hmem
      cases status with
      | scheduled => exact ⟨.starts k, _, by simp [program, start, hpoint, hk]; rfl⟩
      | running => exact ⟨.finishes k none, _, by simp [program, finish, hpoint, hk]; rfl⟩
      | done outcome => exact absurd rfl hnot

omit [DecidableEq κ] in
theorem stage_visit (es : ℕ → Emitter κ) (calls : ℕ → Option E) (p : Emission κ E)
    (ahead : List ℕ) : stage (visit es calls p ahead) < ahead.length + 1 := by
  obtain ⟨quiet, -, ⟨-, hvisit⟩ | ⟨i, rest, rfl, -, hvisit⟩⟩ := visit_cases es calls p ahead
  · rw [hvisit]
    exact Nat.succ_pos _
  · rw [hvisit, List.length_append, List.length_cons]
    rcases call_cases es calls (p.passes quiet) i rest with ⟨-, hcall⟩ | ⟨_, _, _, _, -, -, hcall⟩
    · rw [hcall]
      show rest.length + 1 < _
      omega
    · rw [hcall]
      exact Nat.succ_pos _

omit [DecidableEq κ] in
theorem stage_collect (hpoint : p.point = .gathering i children) :
    stage (collect es calls p i children) < stage p := by
  have hstage : stage p = p.ahead.length + 1 := by rw [stage, hpoint]
  rw [hstage]
  unfold collect
  split
  · exact Nat.succ_pos _
  · exact stage_visit _ _ _ _

omit [DecidableEq κ] in
theorem work_set {x : Listener κ} {s t : Status E} (hchild : children[k]? = some ⟨x, s⟩)
    (hlt : stepsLeft (⟨x, t⟩ : Child κ E) < stepsLeft (⟨x, s⟩ : Child κ E)) :
    ((children.set k ⟨x, t⟩).map stepsLeft).sum < (children.map stepsLeft).sum := by
  have hset := sum_map_set_add (f := stepsLeft) (⟨x, t⟩ : Child κ E) hchild
  omega

theorem step_decreases (hstep : program a es (.emission p) = some (es', .emission p')) :
    Prod.Lex (· < ·) (· < ·) (stage p', work p') (stage p, work p) := by
  rcases step_cases hstep with ⟨_, _, hreg, _⟩ | ⟨p₁, p₂, hp, hp', hcases⟩
  · cases hreg
  · cases hp
    cases hp'
    rcases hcases with ⟨calls, -, rfl, hproceed⟩ | ⟨i, children, k, x, hpoint, hchild, rfl, rfl⟩ |
      ⟨i, children, k, x, outcome, hpoint, hchild, rfl, rfl⟩
    · apply Prod.Lex.left
      rcases proceed_cases hproceed with ⟨hpoint, rfl⟩ | ⟨i, children, hpoint, -, rfl⟩
      · rw [show stage p = p.ahead.length + 1 by rw [stage, hpoint]]
        exact stage_visit _ _ _ _
      · exact stage_collect hpoint
    · rw [show stage p = p.ahead.length + 1 by rw [stage, hpoint],
        show work p = (children.map stepsLeft).sum by rw [work, hpoint]]
      exact Prod.Lex.right _ (work_set hchild (Nat.lt_succ_self 1))
    · rw [show stage p = p.ahead.length + 1 by rw [stage, hpoint],
        show work p = (children.map stepsLeft).sum by rw [work, hpoint]]
      exact Prod.Lex.right _ (work_set hchild Nat.zero_lt_one)

/-- In a run the emissions are isolated throughout, if and only if every step contains what it
raises; and every emission ends, if its tasks do. -/
theorem listeners_isolated (hbegins : ∀ m ∈ moves, Begins m)
    (hrun : run program ⟨es, []⟩ moves = some c) :
    (Throughout program AllIsolated ⟨es, []⟩ moves ↔ Allowed program Harmless ⟨es, []⟩ moves) ∧
      ∀ p, .emission p ∈ c.procs → ¬ p.Ended →
        (∃ a next, program a c.shared (.emission p) = some next) ∧
        ∀ a es' p', program a c.shared (.emission p) = some (es', .emission p') →
          Prod.Lex (· < ·) (· < ·) (stage p', work p') (stage p, work p) := by
  constructor
  · apply throughout_iff_allowed _ _ .refl hrun
    · intro c h p hp
      exact (reach_sound h p hp).isolated
    · intro c m c' hm _ happ h
      exact harmless_of_isolated (hbegins m hm) happ h
  · intro p _ hnot
    exact ⟨can_step _ hnot, fun a es' p' hstep => step_decreases hstep⟩

/-- The call of the first of two listeners raises: the other one is not started, and the exception
leaves `emit` although errors are suppressed. -/
theorem call_raises : ∃ c : Config (ℕ → Emitter ℕ) (Proc ℕ ℕ), run program ⟨fun _ => Emitter.new, []⟩
    [.spawn .registrar, .act 0 (.changes 0 (.on (.torrent .completed) 7)),
      .act 0 (.changes 0 (.on (.torrent .completed) 8)),
      .spawn (.emission (.new (.torrent .completed) true [0])),
      .act 1 (.proceeds fun k => if k = 0 then some 5 else none)] = some c ∧ ¬ AllIsolated c := by
  refine ⟨_, rfl, fun h => ?_⟩
  have hisolated := (h _ (List.mem_cons_of_mem _ List.mem_cons_self)).1
  cases hisolated

theorem listeners_isolated_suppressed :
    ∃ (moves : List (Move (Proc ℕ ℕ) (EventEmitter.Action ℕ ℕ)))
      (c : Config (ℕ → Emitter ℕ) (Proc ℕ ℕ)),
      run program ⟨fun _ => Emitter.new, []⟩ moves = some c ∧
      ((Throughout program AllIsolated ⟨fun _ => Emitter.new, []⟩ moves ↔
        Allowed program Harmless ⟨fun _ => Emitter.new, []⟩ moves) ∧
      ∀ p, .emission p ∈ c.procs → ¬ p.Ended →
        (∃ a next, program a c.shared (.emission p) = some next) ∧
        ∀ a es' p', program a c.shared (.emission p) = some (es', .emission p') →
          Prod.Lex (· < ·) (· < ·) (stage p', work p') (stage p, work p)) :=
  ⟨[.spawn .registrar, .act 0 (.changes 0 (.on (.torrent .error) 7)),
    .act 0 (.changes 1 (.on (.torrent .error) 8)),
    .spawn (.emission (.new (.torrent .error) true [0, 1])),
    .act 1 (.proceeds fun _ => none), .act 1 (.starts 0), .act 1 (.finishes 0 (some 5)),
    .act 1 (.proceeds fun _ => none), .act 1 (.starts 0), .act 1 (.finishes 0 none),
    .act 1 (.proceeds fun _ => none)], _, rfl,
    listeners_isolated (by simp [Begins, Emission.new]) rfl⟩

end ListenerFailures
