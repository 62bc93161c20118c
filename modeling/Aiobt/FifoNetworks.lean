import Mathlib.Data.List.Basic
import Mathlib.Logic.Function.Basic

/-! # Networks with connections that keep the order

Nodes have a state that their processes share. A process has one connection, at the other end of
which is a process of another node, or a stranger that may send anything. What is sent on a
connection arrives in the order in which it was sent. -/
namespace FifoNetworks

variable {σ τ α μ : Type}

structure Protocol (σ τ α μ : Type) where
  /-- What a process can do: `none` where the action is not possible. -/
  step : α → σ → τ → Option (σ × τ)
  takes : α → Option μ
  sends : α → τ → τ → List μ
  relays : α → τ → List μ

structure End (τ μ : Type) where
  node : ℕ
  partner : Option ℕ
  proc : τ
  inbox : List μ

structure Net (σ τ μ : Type) where
  shared : ℕ → σ
  ends : List (End τ μ)

inductive Move (τ α μ : Type) where
  | connect (n m : ℕ) (p q : τ)
  | accept (n : ℕ) (p : τ)
  | hears (e : ℕ) (m : μ)
  | act (e : ℕ) (a : α) (via : ℕ)

def Net.route (c : Net σ τ μ) (x : End τ μ) (via : ℕ) : Option ℕ :=
  (c.ends[via]?.filter fun y => y.node = x.node).bind End.partner

def Net.remote (c : Net σ τ μ) (x : End τ μ) : Option σ :=
  (x.partner.bind fun j => c.ends[j]?).map fun y => c.shared y.node

/-- What an action makes of the ends: the process goes on, its message is taken, and what is sent
comes behind what was sent before. -/
def acted (P : Protocol σ τ α μ) (c : Net σ τ μ) (e : ℕ) (a : α) (via : ℕ) (x : End τ μ)
    (rest : List μ) (p : τ) (k : ℕ) (y : End τ μ) : End τ μ :=
  { y with
    proc := if k = e then p else y.proc
    inbox := (if k = e then rest else y.inbox) ++
      (if x.partner = some k then P.sends a x.proc p else []) ++
      (if c.route x via = some k then P.relays a x.proc else []) }

def heard (e : ℕ) (m : μ) (k : ℕ) (y : End τ μ) : End τ μ :=
  if k = e then { y with inbox := y.inbox ++ [m] } else y

section

variable [DecidableEq μ]

def taken (inbox : List μ) : Option μ → Option (List μ)
  | none => some inbox
  | some m =>
    match inbox with
    | [] => none
    | first :: rest => if first = m then some rest else none

def apply (P : Protocol σ τ α μ) (c : Net σ τ μ) : Move τ α μ → Option (Net σ τ μ)
  | .connect n m p q => some { c with
      ends := c.ends ++ [⟨n, some (c.ends.length + 1), p, []⟩, ⟨m, some c.ends.length, q, []⟩] }
  | .accept n p => some { c with ends := c.ends ++ [⟨n, none, p, []⟩] }
  | .hears e m =>
    match c.ends[e]? with
    | some ⟨_, none, _, _⟩ => some { c with ends := c.ends.mapIdx (heard e m) }
    | _ => none
  | .act e a via =>
    match c.ends[e]? with
    | none => none
    | some x =>
      match taken x.inbox (P.takes a), P.step a (c.shared x.node) x.proc with
      | some rest, some (s, p) =>
        some ⟨Function.update c.shared x.node s, c.ends.mapIdx (acted P c e a via x rest p)⟩
      | _, _ => none

/-- The networks that moves lead to, where each move is allowed by `ok`. -/
inductive Reach (P : Protocol σ τ α μ) (ok : Net σ τ μ → Move τ α μ → Prop) (start : Net σ τ μ) :
    Net σ τ μ → Prop
  | refl : Reach P ok start start
  | next {c c'} (m : Move τ α μ) : Reach P ok start c → ok c m → apply P c m = some c' →
      Reach P ok start c'

end

section

variable [DecidableEq μ]

def run (P : Protocol σ τ α μ) : Net σ τ μ → List (Move τ α μ) → Option (Net σ τ μ)
  | c, [] => some c
  | c, m :: rest => (apply P c m).bind fun c' => run P c' rest

end

variable {P : Protocol σ τ α μ} {ok : Net σ τ μ → Move τ α μ → Prop} {start c c' : Net σ τ μ}
  {e via k : ℕ} {a : α} {x y : End τ μ} {rest : List μ} {s : σ} {p : τ}

structure Acted (P : Protocol σ τ α μ) (c : Net σ τ μ) (e : ℕ) (a : α) (via : ℕ) (x : End τ μ)
    (rest : List μ) (s : σ) (p : τ) (c' : Net σ τ μ) : Prop where
  at_end : c.ends[e]? = some x
  inbox : x.inbox = (P.takes a).toList ++ rest
  step : P.step a (c.shared x.node) x.proc = some (s, p)
  shared : c'.shared = Function.update c.shared x.node s
  ends : c'.ends = c.ends.mapIdx (acted P c e a via x rest p)

section

variable [DecidableEq μ]

theorem taken_some {inbox : List μ} {m : Option μ} (h : taken inbox m = some rest) :
    inbox = m.toList ++ rest := by
  cases m with
  | none => exact Option.some.inj h
  | some m =>
    cases inbox with
    | nil => cases h
    | cons first inbox =>
      rw [taken] at h
      split at h
      · next heq =>
        obtain rfl := Option.some.inj h
        rw [heq]
        rfl
      · cases h

theorem apply_act (h : apply P c (.act e a via) = some c') :
    ∃ x rest s p, Acted P c e a via x rest s p c' := by
  rw [apply] at h
  split at h
  · cases h
  · next x hx =>
    split at h
    · next rest s p hrest hstep =>
      obtain rfl := Option.some.inj h
      exact ⟨x, rest, s, p, hx, taken_some hrest, hstep, rfl, rfl⟩
    · cases h

theorem apply_connect {n m : ℕ} {p q : τ} (h : apply P c (.connect n m p q) = some c') :
    c' = { c with
      ends := c.ends ++ [⟨n, some (c.ends.length + 1), p, []⟩, ⟨m, some c.ends.length, q, []⟩] } :=
  (Option.some.inj h).symm

theorem apply_accept {n : ℕ} (h : apply P c (.accept n p) = some c') :
    c' = { c with ends := c.ends ++ [⟨n, none, p, []⟩] } := (Option.some.inj h).symm

theorem apply_hears {m : μ} (h : apply P c (.hears e m) = some c') :
    ∃ x, c.ends[e]? = some x ∧ x.partner = none ∧
      c' = { c with ends := c.ends.mapIdx (heard e m) } := by
  rw [apply] at h
  split at h
  · next hx => exact ⟨_, hx, rfl, (Option.some.inj h).symm⟩
  · cases h

theorem Reach.mono {ok' : Net σ τ μ → Move τ α μ → Prop} (h : Reach P ok start c)
    (hok : ∀ c m, ok c m → ok' c m) : Reach P ok' start c := by
  induction h with
  | refl => exact .refl
  | next m _ hm happ ih => exact .next m ih (hok _ m hm) happ

theorem Reach.run {moves : List (Move τ α μ)} (h : Reach P ok start c)
    (hok : ∀ m ∈ moves, ∀ c, ok c m) (hrun : FifoNetworks.run P c moves = some c') :
    Reach P ok start c' := by
  induction moves generalizing c with
  | nil =>
    obtain rfl := Option.some.inj hrun
    exact h
  | cons m rest ih =>
    obtain ⟨c₁, happ, hrest⟩ := Option.bind_eq_some_iff.mp hrun
    refine ih (.next m h (hok m List.mem_cons_self c) happ) (fun m' hm => ?_) hrest
    exact hok m' (List.mem_cons_of_mem m hm)

theorem Reach.recall (h : Reach P ok start c) :
    Reach P (fun c m => ok c m ∧ Reach P ok start c) start c := by
  induction h with
  | refl => exact .refl
  | next m hreach hm happ ih => exact .next m ih ⟨hm, hreach⟩ happ

/-- What holds at the start and is kept by every allowed move holds everywhere. -/
theorem Reach.invariant {I : Net σ τ μ → Prop} (h : Reach P ok start c) (hstart : I start)
    (hmove : ∀ c m c', I c → ok c m → apply P c m = some c' → I c') : I c := by
  induction h with
  | refl => exact hstart
  | next m _ hok happ ih => exact hmove _ m _ ih hok happ

end

def Linked (c : Net σ τ μ) : Prop :=
  ∀ (e j : ℕ) (x : End τ μ), c.ends[e]? = some x → x.partner = some j →
    j ≠ e ∧ ∃ y, c.ends[j]? = some y ∧ y.partner = some e

def KeepsLinks (c c' : Net σ τ μ) : Prop :=
  ∀ (k : ℕ) (y : End τ μ), c.ends[k]? = some y →
    ∃ y', c'.ends[k]? = some y' ∧ y'.node = y.node ∧ y'.partner = y.partner

theorem Acted.getElem? (h : Acted P c e a via x rest s p c') (hk : c.ends[k]? = some y) :
    c'.ends[k]? = some (acted P c e a via x rest p k y) := by
  rw [h.ends, List.getElem?_mapIdx, hk]
  rfl

theorem Acted.back {y' : End τ μ} (h : Acted P c e a via x rest s p c')
    (hk : c'.ends[k]? = some y') :
    ∃ y, c.ends[k]? = some y ∧ y' = acted P c e a via x rest p k y := by
  rw [h.ends, List.getElem?_mapIdx] at hk
  obtain ⟨y, hy, rfl⟩ := Option.map_eq_some_iff.mp hk
  exact ⟨y, hy, rfl⟩

theorem Acted.keepsLinks (h : Acted P c e a via x rest s p c') : KeepsLinks c c' :=
  fun _ _ hy => ⟨_, h.getElem? hy, rfl, rfl⟩

theorem heard_links (e : ℕ) (m : μ) (k : ℕ) (y : End τ μ) :
    (heard e m k y).node = y.node ∧ (heard e m k y).partner = y.partner ∧
      (heard e m k y).proc = y.proc := by
  unfold heard
  split
  · exact ⟨rfl, rfl, rfl⟩
  · exact ⟨rfl, rfl, rfl⟩

theorem keepsLinks_hears (c : Net σ τ μ) (e : ℕ) (m : μ) :
    KeepsLinks c { c with ends := c.ends.mapIdx (heard e m) } := by
  intro k y hy
  refine ⟨heard e m k y, ?_, (heard_links e m k y).1, (heard_links e m k y).2.1⟩
  rw [List.getElem?_mapIdx, hy]
  rfl

theorem keepsLinks_append (c : Net σ τ μ) (more : List (End τ μ)) :
    KeepsLinks c { c with ends := c.ends ++ more } := by
  intro k y hy
  refine ⟨y, ?_, rfl, rfl⟩
  rw [List.getElem?_append_left (List.getElem?_eq_some_iff.mp hy).1, hy]

theorem getElem?_append_cases {l more : List (End τ μ)} (h : (l ++ more)[k]? = some y) :
    l[k]? = some y ∨ ∃ d, k = l.length + d ∧ more[d]? = some y := by
  by_cases hk : k < l.length
  · rw [List.getElem?_append_left hk] at h
    exact Or.inl h
  · rw [List.getElem?_append_right (by omega)] at h
    exact Or.inr ⟨k - l.length, by omega, h⟩

def newEnds (c : Net σ τ μ) (n m : ℕ) (p q : τ) : List (End τ μ) :=
  [⟨n, some (c.ends.length + 1), p, []⟩, ⟨m, some c.ends.length, q, []⟩]

theorem newEnds_cases {n m : ℕ} {p q : τ} {d : ℕ} (h : (newEnds c n m p q)[d]? = some y) :
    d = 0 ∧ y = ⟨n, some (c.ends.length + 1), p, []⟩ ∨ d = 1 ∧ y = ⟨m, some c.ends.length, q, []⟩ := by
  cases d with
  | zero => exact Or.inl ⟨rfl, (Option.some.inj h).symm⟩
  | succ d =>
    cases d with
    | zero => exact Or.inr ⟨rfl, (Option.some.inj h).symm⟩
    | succ d => cases h

theorem Linked.append {more : List (End τ μ)} (h : Linked c)
    (hnew : ∀ (d j : ℕ) (x : End τ μ), more[d]? = some x → x.partner = some j →
      j ≠ c.ends.length + d ∧
        ∃ y, (c.ends ++ more)[j]? = some y ∧ y.partner = some (c.ends.length + d)) :
    Linked { c with ends := c.ends ++ more } := by
  intro e j x hx hj
  rcases getElem?_append_cases hx with hold | ⟨d, rfl, hd⟩
  · obtain ⟨hne, y, hy, hback⟩ := h e j x hold hj
    obtain ⟨y', hy', -, hpartner⟩ := keepsLinks_append c more j y hy
    exact ⟨hne, y', hy', hpartner.trans hback⟩
  · exact hnew d j x hd hj

section

variable [DecidableEq μ]

theorem linked_move {m : Move τ α μ} (h : Linked c) (happ : apply P c m = some c') : Linked c' := by
  cases m with
  | connect n m p q =>
    obtain rfl := apply_connect happ
    refine h.append fun d j x hd hj => ?_
    rcases newEnds_cases hd with ⟨rfl, rfl⟩ | ⟨rfl, rfl⟩
    · obtain rfl := Option.some.inj hj
      refine ⟨by omega, ⟨m, some c.ends.length, q, []⟩, ?_, by rw [Nat.add_zero]⟩
      rw [List.getElem?_append_right (by omega), Nat.add_sub_cancel_left]
      rfl
    · obtain rfl := Option.some.inj hj
      refine ⟨by omega, ⟨n, some (c.ends.length + 1), p, []⟩, ?_, rfl⟩
      rw [List.getElem?_append_right (Nat.le_refl _), Nat.sub_self]
      rfl
  | accept n p =>
    obtain rfl := apply_accept happ
    refine h.append fun d j x hd hj => ?_
    obtain rfl := List.mem_singleton.mp (List.mem_of_getElem? hd)
    cases hj
  | hears e₁ m =>
    obtain ⟨-, -, -, rfl⟩ := apply_hears happ
    intro e j x' hx' hj
    rw [List.getElem?_mapIdx] at hx'
    obtain ⟨x, hx, rfl⟩ := Option.map_eq_some_iff.mp hx'
    rw [(heard_links e₁ m e x).2.1] at hj
    obtain ⟨hne, y, hy, hback⟩ := h e j x hx hj
    obtain ⟨y', hy', -, hpartner⟩ := keepsLinks_hears c e₁ m j y hy
    exact ⟨hne, y', hy', hpartner.trans hback⟩
  | act e₁ a via =>
    obtain ⟨x₁, rest, s, p, hacted⟩ := apply_act happ
    intro e j x' hx' hj
    obtain ⟨x, hx, rfl⟩ := hacted.back hx'
    obtain ⟨hne, y, hy, hback⟩ := h e j x hx hj
    obtain ⟨y', hy', -, hpartner⟩ := hacted.keepsLinks j y hy
    exact ⟨hne, y', hy', hpartner.trans hback⟩

theorem Reach.linked {shared : ℕ → σ} (h : Reach P ok ⟨shared, []⟩ c) : Linked c := by
  refine h.invariant (I := Linked) ?_ fun _ _ _ hlinked _ happ => linked_move hlinked happ
  intro e j x hx
  cases hx

end

section

variable (G : σ → Prop) (Q : σ → Option σ → τ → Prop) (M : Option σ → σ → μ → Prop)

/-- Of each node, of each process with the nodes at both ends, and of each message with the node
that has sent it, unless a stranger has, and the one that it is sent to. -/
structure Holds (c : Net σ τ μ) : Prop where
  nodes : ∀ n, G (c.shared n)
  procs : ∀ (k : ℕ) (y : End τ μ), c.ends[k]? = some y → Q (c.shared y.node) (c.remote y) y.proc
  inboxes : ∀ (k : ℕ) (y : End τ μ), c.ends[k]? = some y →
    ∀ m ∈ y.inbox, M (c.remote y) (c.shared y.node) m

end

variable {G : σ → Prop} {Q : σ → Option σ → τ → Prop} {M : Option σ → σ → μ → Prop} {R : σ → σ → Prop}

/-- Where ends and nodes stay, the node at the other end changes as nodes do. -/
theorem remote_rel (hlinked : Linked c) (hlinks : KeepsLinks c c')
    (hshared : ∀ n, R (c.shared n) (c'.shared n)) {y' : End τ μ} (hk : c.ends[k]? = some y)
    (hpartner : y'.partner = y.partner) : Option.Rel R (c.remote y) (c'.remote y') := by
  unfold Net.remote
  rw [hpartner]
  cases hj : y.partner with
  | none => exact .none
  | some j =>
    obtain ⟨-, z, hz, -⟩ := hlinked k j y hk hj
    obtain ⟨z', hz', hnode, -⟩ := hlinks j z hz
    rw [Option.bind_some, Option.bind_some, hz, hz', Option.map_some, Option.map_some, hnode]
    exact .some (hshared _)

/-- What the processes and messages hold is stable under what the steps do to the nodes. -/
structure Stable (Q : σ → Option σ → τ → Prop) (M : Option σ → σ → μ → Prop) (R : σ → σ → Prop) :
    Prop where
  refl : ∀ s, R s s
  proc : ∀ {s s' r r' p}, R s s' → Option.Rel R r r' → Q s r p → Q s' r' p
  message : ∀ {r r' s s' m}, Option.Rel R r r' → R s s' → M r s m → M r' s' m

theorem Stable.remote_some {r : σ} {o o' : Option σ} (h : Option.Rel R o o') (ho : o' = some r) :
    ∃ r₀, o = some r₀ ∧ R r₀ r := by
  cases h with
  | none => cases ho
  | some hr =>
    obtain rfl := Option.some.inj ho
    exact ⟨_, rfl, hr⟩

theorem Holds.append (h : Holds G Q M c) (hlinked : Linked c) (hstable : Stable Q M R)
    {more : List (End τ μ)} (hnew : ∀ y ∈ more, y.inbox = [] ∧
      Q (c.shared y.node) (Net.remote { c with ends := c.ends ++ more } y) y.proc) :
    Holds G Q M { c with ends := c.ends ++ more } := by
  have hrel : ∀ (k : ℕ) (y : End τ μ), c.ends[k]? = some y →
      Option.Rel R (c.remote y) (Net.remote { c with ends := c.ends ++ more } y) := fun k y hk =>
    remote_rel hlinked (keepsLinks_append c more) (fun n => hstable.refl _) hk rfl
  constructor
  · exact h.nodes
  · intro k y hy
    rcases getElem?_append_cases hy with hold | ⟨d, -, hd⟩
    · exact hstable.proc (hstable.refl _) (hrel k y hold) (h.procs k y hold)
    · exact (hnew y (List.mem_of_getElem? hd)).2
  · intro k y hy m hm
    rcases getElem?_append_cases hy with hold | ⟨d, -, hd⟩
    · exact hstable.message (hrel k y hold) (hstable.refl _) (h.inboxes k y hold m hm)
    · rw [(hnew y (List.mem_of_getElem? hd)).1] at hm
      cases hm

/-- A step that keeps what holds of its node and its process, changes the node by `R` only, and sends
messages that hold. -/
structure Keeps (P : Protocol σ τ α μ) (G : σ → Prop) (Q : σ → Option σ → τ → Prop)
    (M : Option σ → σ → μ → Prop) (R : σ → σ → Prop) (a : α) (s : σ) (r : Option σ) (p : τ) (s' : σ)
    (p' : τ) : Prop where
  node : G s'
  changes : R s s'
  proc : Q s' r p'
  sends : ∀ r₀, r = some r₀ → ∀ m ∈ P.sends a p p', M (some s') r₀ m
  relays : ∀ r₀, ∀ m ∈ P.relays a p, M (some s') r₀ m

theorem Holds.hears (h : Holds G Q M c) (hlinked : Linked c) (hstable : Stable Q M R) {m : μ}
    (hx : c.ends[e]? = some x) (hstranger : x.partner = none) (hm : M none (c.shared x.node) m) :
    Holds G Q M { c with ends := c.ends.mapIdx (heard e m) } := by
  have hback : ∀ (k : ℕ) (y' : End τ μ), (c.ends.mapIdx (heard e m))[k]? = some y' →
      ∃ y, c.ends[k]? = some y ∧ y' = heard e m k y := by
    intro k y' hy'
    rw [List.getElem?_mapIdx] at hy'
    obtain ⟨y, hy, rfl⟩ := Option.map_eq_some_iff.mp hy'
    exact ⟨y, hy, rfl⟩
  have hrel : ∀ (k : ℕ) (y : End τ μ), c.ends[k]? = some y → Option.Rel R (c.remote y)
      (Net.remote { c with ends := c.ends.mapIdx (heard e m) } (heard e m k y)) := fun k y hk =>
    remote_rel hlinked (keepsLinks_hears c e m) (fun n => hstable.refl _) hk (heard_links e m k y).2.1
  constructor
  · exact h.nodes
  · intro k y' hy'
    obtain ⟨y, hy, rfl⟩ := hback k y' hy'
    obtain ⟨hnode, -, hproc⟩ := heard_links e m k y
    rw [hnode, hproc]
    exact hstable.proc (hstable.refl _) (hrel k y hy) (h.procs k y hy)
  · intro k y' hy' msg hmsg
    obtain ⟨y, hy, rfl⟩ := hback k y' hy'
    rw [(heard_links e m k y).1]
    refine hstable.message (hrel k y hy) (hstable.refl _) ?_
    unfold heard at hmsg
    split at hmsg
    · next hk =>
      subst hk
      obtain rfl := Option.some.inj (hx.symm.trans hy)
      rcases List.mem_append.mp hmsg with hold | hnew
      · exact h.inboxes k x hy msg hold
      · obtain rfl := List.mem_singleton.mp hnew
        rw [Net.remote, hstranger]
        exact hm
    · exact h.inboxes k y hy msg hmsg

theorem Holds.act (h : Holds G Q M c) (hlinked : Linked c) (hstable : Stable Q M R)
    (hacted : Acted P c e a via x rest s p c')
    (hkeeps : Keeps P G Q M R a (c.shared x.node) (c.remote x) x.proc s p) : Holds G Q M c' := by
  have hshared : ∀ n, R (c.shared n) (c'.shared n) := by
    intro n
    rw [hacted.shared]
    by_cases hn : n = x.node
    · rw [hn, Function.update_self]
      exact hkeeps.changes
    · rw [Function.update_of_ne hn]
      exact hstable.refl _
  have hrel : ∀ (k : ℕ) (y : End τ μ), c.ends[k]? = some y →
      Option.Rel R (c.remote y) (c'.remote (acted P c e a via x rest p k y)) := fun k y hk =>
    remote_rel hlinked hacted.keepsLinks hshared hk rfl
  constructor
  · intro n
    rw [hacted.shared]
    by_cases hn : n = x.node
    · rw [hn, Function.update_self]
      exact hkeeps.node
    · rw [Function.update_of_ne hn]
      exact h.nodes n
  · intro k y' hy'
    obtain ⟨y, hy, rfl⟩ := hacted.back hy'
    have hstay := hrel k y hy
    by_cases hk : k = e
    · subst hk
      obtain rfl := Option.some.inj (hacted.at_end.symm.trans hy)
      have hown : c'.shared (acted P c k a via x rest p k x).node = s := by
        rw [hacted.shared]
        exact Function.update_self ..
      have hproc : (acted P c k a via x rest p k x).proc = p := if_pos rfl
      rw [hown, hproc]
      exact hstable.proc (hstable.refl s) hstay hkeeps.proc
    · have hproc : (acted P c e a via x rest p k y).proc = y.proc := if_neg hk
      rw [hproc]
      exact hstable.proc (hshared _) hstay (h.procs k y hy)
  · intro k y' hy' m hm
    obtain ⟨y, hy, rfl⟩ := hacted.back hy'
    have hsender : ∀ v z, c.ends[v]? = some z → z.node = x.node → y.partner = some v →
        c'.remote (acted P c e a via x rest p k y) = some s := by
      intro v z hz hnode hpartner
      have hremote : c'.remote (acted P c e a via x rest p k y) =
          (c'.ends[v]?).map fun y => c'.shared y.node := by
        show (y.partner.bind fun j => c'.ends[j]?).map _ = _
        rw [hpartner, Option.bind_some]
      rw [hremote, hacted.getElem? hz, Option.map_some, hacted.shared]
      refine congrArg some ((congrArg _ hnode).trans ?_)
      exact Function.update_self ..
    rcases List.mem_append.mp hm with hm | hrelay
    · rcases List.mem_append.mp hm with hold | hsend
      · refine hstable.message (hrel k y hy) (hshared _) (h.inboxes k y hy m ?_)
        by_cases hk : k = e
        · subst hk
          obtain rfl := Option.some.inj (hacted.at_end.symm.trans hy)
          rw [if_pos rfl] at hold
          rw [hacted.inbox]
          exact List.mem_append_right _ hold
        · rwa [if_neg hk] at hold
      · split at hsend
        · next hpartner =>
          obtain ⟨-, z, hz, hback⟩ := hlinked e k x hacted.at_end hpartner
          obtain rfl := Option.some.inj (hz.symm.trans hy)
          have hreceiver : c.remote x = some (c.shared z.node) := by
            rw [Net.remote, hpartner, Option.bind_some, hz, Option.map_some]
          rw [hsender e x hacted.at_end rfl hback]
          exact hstable.message (.some (hstable.refl s)) (hshared _) (hkeeps.sends _ hreceiver m hsend)
        · cases hsend
    · split at hrelay
      · next hroute =>
        obtain ⟨v, hv, hpartner⟩ := Option.bind_eq_some_iff.mp hroute
        obtain ⟨hv, hnode⟩ := Option.filter_eq_some_iff.mp hv
        obtain ⟨-, z, hz, hback⟩ := hlinked via k v hv hpartner
        obtain rfl := Option.some.inj (hz.symm.trans hy)
        rw [hsender via v hv (of_decide_eq_true hnode) hback]
        exact hkeeps.relays _ m hrelay
      · cases hrelay

section

variable [DecidableEq μ]

/-- What holds of all nodes at the start, and is kept by every step, holds everywhere. -/
theorem Reach.rely_guarantee {shared : ℕ → σ} (h : Reach P ok ⟨shared, []⟩ c)
    (hstable : Stable Q M R) (hstart : ∀ n, G (shared n))
    (hconnect : ∀ c n m p q, Holds G Q M c → ok c (.connect n m p q) →
      Q (c.shared n) (some (c.shared m)) p ∧ Q (c.shared m) (some (c.shared n)) q)
    (haccept : ∀ c n p, Holds G Q M c → ok c (.accept n p) → Q (c.shared n) none p)
    (hhears : ∀ c e x m, ok c (.hears e m) → c.ends[e]? = some x → M none (c.shared x.node) m)
    (hact : ∀ c e a via x s p, Holds G Q M c → ok c (.act e a via) → c.ends[e]? = some x →
      P.step a (c.shared x.node) x.proc = some (s, p) →
      (∀ m, P.takes a = some m → M (c.remote x) (c.shared x.node) m) →
      Keeps P G Q M R a (c.shared x.node) (c.remote x) x.proc s p) : Holds G Q M c := by
  induction h with
  | refl =>
    constructor
    · exact hstart
    · intro k y hy
      cases hy
    · intro k y hy
      cases hy
  | @next c c' move hreach hok happ ih =>
    have hlinked := hreach.linked
    cases move with
    | connect n m p q =>
      obtain rfl := apply_connect happ
      obtain ⟨hp, hq⟩ := hconnect c n m p q ih hok
      refine ih.append hlinked hstable fun y hy => ?_
      rcases List.mem_cons.mp hy with rfl | hy
      · refine ⟨rfl, ?_⟩
        have hremote : Net.remote { c with ends := c.ends ++ newEnds c n m p q }
            ⟨n, some (c.ends.length + 1), p, []⟩ = some (c.shared m) := by
          rw [Net.remote, Option.bind_some, List.getElem?_append_right (by omega),
            Nat.add_sub_cancel_left]
          rfl
        exact hremote ▸ hp
      · obtain rfl := List.mem_singleton.mp hy
        refine ⟨rfl, ?_⟩
        have hremote : Net.remote { c with ends := c.ends ++ newEnds c n m p q }
            ⟨m, some c.ends.length, q, []⟩ = some (c.shared n) := by
          rw [Net.remote, Option.bind_some, List.getElem?_append_right (Nat.le_refl _), Nat.sub_self]
          rfl
        exact hremote ▸ hq
    | accept n p =>
      obtain rfl := apply_accept happ
      refine ih.append hlinked hstable fun y hy => ?_
      obtain rfl := List.mem_singleton.mp hy
      exact ⟨rfl, haccept c n p ih hok⟩
    | hears e m =>
      obtain ⟨x, hx, hstranger, rfl⟩ := apply_hears happ
      exact ih.hears hlinked hstable hx hstranger (hhears c e x m hok hx)
    | act e a via =>
      obtain ⟨x, rest, s, p, hacted⟩ := apply_act happ
      refine ih.act hlinked hstable hacted (hact c e a via x s p ih hok hacted.at_end hacted.step ?_)
      intro m hm
      refine ih.inboxes e x hacted.at_end m ?_
      rw [hacted.inbox, hm]
      exact List.mem_append_left _ (List.mem_singleton_self m)

end

end FifoNetworks
