import Mathlib.Data.List.Forall2
import Aiobt.FifoNetworks

/-! # Networks over streams

Connections carry streams instead of messages. What is sent is written behind what was sent before,
arrives in segments of any size, and is read as a message when all of the message is there. Such a
network refines the one whose connections carry messages. -/
namespace WireNetworks

open FifoNetworks

variable {σ τ α μ β : Type}

structure Codec (μ β : Type) where
  encode : μ → List β
  decode : List β → Option (μ × List β)

/-- Good messages are read back, and what is read does not change when more arrives. -/
structure Codec.Lawful (K : Codec μ β) (good : μ → Prop) : Prop where
  nothing : K.decode [] = none
  back : ∀ m, good m → ∀ rest, K.decode (K.encode m ++ rest) = some (m, rest)
  grows : ∀ b m rest, K.decode b = some (m, rest) → ∀ more, K.decode (b ++ more) = some (m, rest ++ more)

structure Port (τ β : Type) where
  node : ℕ
  partner : Option ℕ
  proc : τ
  buffer : List β
  flight : List β

structure Wires (σ τ β : Type) where
  shared : ℕ → σ
  ports : List (Port τ β)

inductive Event (τ α β : Type) where
  | connect (n m : ℕ) (p q : τ)
  | accept (n : ℕ) (p : τ)
  | floods (e : ℕ) (units : List β)
  | arrives (e n : ℕ)
  | act (e : ℕ) (a : α) (via : ℕ)

def Wires.route (w : Wires σ τ β) (x : Port τ β) (via : ℕ) : Option ℕ :=
  (w.ports[via]?.filter fun y => y.node = x.node).bind Port.partner

def Wires.remote (w : Wires σ τ β) (x : Port τ β) : Option σ :=
  (x.partner.bind fun j => w.ports[j]?).map fun y => w.shared y.node

section
variable (K : Codec μ β)

def stepped (P : Protocol σ τ α μ) (w : Wires σ τ β) (e : ℕ) (a : α) (via : ℕ) (x : Port τ β)
    (rest : List β) (p : τ) (k : ℕ) (y : Port τ β) : Port τ β :=
  { y with
    proc := if k = e then p else y.proc
    buffer := if k = e then rest else y.buffer
    flight := y.flight ++
      (if x.partner = some k then (P.sends a x.proc p).flatMap K.encode else []) ++
      (if w.route x via = some k then (P.relays a x.proc).flatMap K.encode else []) }

def flooded (e : ℕ) (units : List β) (k : ℕ) (y : Port τ β) : Port τ β :=
  if k = e then { y with flight := y.flight ++ units } else y

def arrived (e n k : ℕ) (y : Port τ β) : Port τ β :=
  if k = e then { y with buffer := y.buffer ++ y.flight.take n, flight := y.flight.drop n } else y

variable [DecidableEq μ]

def unread (buffer : List β) : Option μ → Option (List β)
  | none => some buffer
  | some m => (K.decode buffer).bind fun next => if next.1 = m then some next.2 else none

def happen (P : Protocol σ τ α μ) (w : Wires σ τ β) : Event τ α β → Option (Wires σ τ β)
  | .connect n m p q => some { w with
      ports := w.ports ++
        [⟨n, some (w.ports.length + 1), p, [], []⟩, ⟨m, some w.ports.length, q, [], []⟩] }
  | .accept n p => some { w with ports := w.ports ++ [⟨n, none, p, [], []⟩] }
  | .floods e units =>
    match w.ports[e]? with
    | some ⟨_, none, _, _, _⟩ => some { w with ports := w.ports.mapIdx (flooded e units) }
    | _ => none
  | .arrives e n => some { w with ports := w.ports.mapIdx (arrived e n) }
  | .act e a via =>
    match w.ports[e]? with
    | none => none
    | some x =>
      match unread K x.buffer (P.takes a), P.step a (w.shared x.node) x.proc with
      | some rest, some (s, p) =>
        some ⟨Function.update w.shared x.node s, w.ports.mapIdx (stepped K P w e a via x rest p)⟩
      | _, _ => none

inductive Unfolds (P : Protocol σ τ α μ) (ok : Wires σ τ β → Event τ α β → Prop)
    (start : Wires σ τ β) : Wires σ τ β → Prop
  | refl : Unfolds P ok start start
  | next {w w'} (m : Event τ α β) : Unfolds P ok start w → ok w m → happen K P w m = some w' →
      Unfolds P ok start w'

def play (P : Protocol σ τ α μ) : Wires σ τ β → List (Event τ α β) → Option (Wires σ τ β)
  | w, [] => some w
  | w, m :: rest => (happen K P w m).bind fun w' => play P w' rest

end

structure Same (y : Port τ β) (z : End τ μ) : Prop where
  node : y.node = z.node
  partner : y.partner = z.partner
  proc : y.proc = z.proc

/-- Two networks of the same nodes, whose ports and ends are related. -/
structure Alike (D : Port τ β → End τ μ → Prop) (w : Wires σ τ β) (c : Net σ τ μ) : Prop where
  shared : w.shared = c.shared
  length : w.ports.length = c.ends.length
  carries : ∀ (k : ℕ) (y : Port τ β) (z : End τ μ), w.ports[k]? = some y → c.ends[k]? = some z → D y z

section
variable (K : Codec μ β)

/-- A port carries the messages of an end; nothing waits at the end of a stranger. -/
structure Carries (y : Port τ β) (z : End τ μ) : Prop extends Same y z where
  stream : z.partner ≠ none → y.buffer ++ y.flight = z.inbox.flatMap K.encode
  empty : z.partner = none → z.inbox = []

abbrev Refines (w : Wires σ τ β) (c : Net σ τ μ) : Prop := Alike (Carries K) w c

end

variable {K : Codec μ β} {good : μ → Prop} {P : Protocol σ τ α μ} {w w' : Wires σ τ β}
  {c start : Net σ τ μ} {e k via : ℕ} {a : α} {x y : Port τ β} {z : End τ μ}
  {D : Port τ β → End τ μ → Prop}

theorem arrived_stream (e n k : ℕ) (y : Port τ β) :
    (arrived e n k y).buffer ++ (arrived e n k y).flight = y.buffer ++ y.flight := by
  unfold arrived
  split
  · show (y.buffer ++ y.flight.take n) ++ y.flight.drop n = _
    rw [List.append_assoc, List.take_append_drop]
  · rfl

theorem Same.arrived (h : Same y z) (e n k : ℕ) : Same (arrived e n k y) z := by
  unfold WireNetworks.arrived
  split
  · exact ⟨h.node, h.partner, h.proc⟩
  · exact h

theorem Alike.to_end (h : Alike D w c) (hy : w.ports[k]? = some y) :
    ∃ z, c.ends[k]? = some z ∧ D y z := by
  have hk : k < c.ends.length := by
    rw [← h.length]
    exact (List.getElem?_eq_some_iff.mp hy).1
  exact ⟨_, List.getElem?_eq_getElem hk, h.carries k y _ hy (List.getElem?_eq_getElem hk)⟩

theorem Alike.to_port (h : Alike D w c) (hz : c.ends[k]? = some z) :
    ∃ y, w.ports[k]? = some y ∧ D y z := by
  have hk : k < w.ports.length := by
    rw [h.length]
    exact (List.getElem?_eq_some_iff.mp hz).1
  exact ⟨_, List.getElem?_eq_getElem hk, h.carries k _ z (List.getElem?_eq_getElem hk) hz⟩

theorem Alike.no_end (h : Alike D w c) (hk : w.ports[k]? = none) : c.ends[k]? = none := by
  rw [List.getElem?_eq_none_iff, ← h.length]
  exact List.getElem?_eq_none_iff.mp hk

theorem Alike.mono {E : Port τ β → End τ μ → Prop} (h : Alike D w c) (hD : ∀ y z, D y z → E y z) :
    Alike E w c := ⟨h.shared, h.length, fun k y z hy hz => hD y z (h.carries k y z hy hz)⟩

/-- Ports and ends lead to the same places. -/
theorem Alike.route (h : Alike Same w c) (hxz : Same x z) (via : ℕ) : w.route x via = c.route z via := by
  unfold Wires.route Net.route
  cases hy : w.ports[via]? with
  | none =>
    rw [h.no_end hy]
    rfl
  | some y =>
    obtain ⟨u, hu, hsame⟩ := h.to_end hy
    rw [hu, Option.filter_some, Option.filter_some, hxz.node, hsame.node]
    split
    · exact hsame.partner
    · rfl

theorem Alike.remote (h : Alike Same w c) (hxz : Same x z) : w.remote x = c.remote z := by
  unfold Wires.remote Net.remote
  rw [hxz.partner]
  cases z.partner with
  | none => rfl
  | some j =>
    rw [Option.bind_some, Option.bind_some]
    cases hy : w.ports[j]? with
    | none =>
      rw [h.no_end hy]
      rfl
    | some y =>
      obtain ⟨u, hu, hsame⟩ := h.to_end hy
      rw [hu, Option.map_some, Option.map_some, h.shared, hsame.node]

theorem Alike.procs (h : Alike Same w c) : w.ports.map Port.proc = c.ends.map End.proc := by
  refine List.ext_getElem? fun k => ?_
  rw [List.getElem?_map, List.getElem?_map]
  cases hy : w.ports[k]? with
  | none =>
    rw [h.no_end hy]
    rfl
  | some y =>
    obtain ⟨z, hz, hsame⟩ := h.to_end hy
    rw [hz, Option.map_some, Option.map_some, hsame.proc]

theorem Alike.mapIdx {f : ℕ → Port τ β → Port τ β} {g : ℕ → End τ μ → End τ μ} {shared : ℕ → σ}
    (h : Alike D w c)
    (hfg : ∀ k y z, w.ports[k]? = some y → c.ends[k]? = some z → D y z → D (f k y) (g k z)) :
    Alike D ⟨shared, w.ports.mapIdx f⟩ ⟨shared, c.ends.mapIdx g⟩ where
  shared := rfl
  length := by
    rw [List.length_mapIdx, List.length_mapIdx]
    exact h.length
  carries k y z hy hz := by
    rw [List.getElem?_mapIdx] at hy hz
    obtain ⟨y₀, hy₀, rfl⟩ := Option.map_eq_some_iff.mp hy
    obtain ⟨z₀, hz₀, rfl⟩ := Option.map_eq_some_iff.mp hz
    exact hfg k y₀ z₀ hy₀ hz₀ (h.carries k y₀ z₀ hy₀ hz₀)

theorem Alike.ports {f : ℕ → Port τ β → Port τ β} (h : Alike D w c)
    (hf : ∀ k y z, w.ports[k]? = some y → D y z → D (f k y) z) :
    Alike D { w with ports := w.ports.mapIdx f } c where
  shared := h.shared
  length := by
    rw [List.length_mapIdx]
    exact h.length
  carries k y z hy hz := by
    rw [List.getElem?_mapIdx] at hy
    obtain ⟨y₀, hy₀, rfl⟩ := Option.map_eq_some_iff.mp hy
    exact hf k y₀ z hy₀ (h.carries k y₀ z hy₀ hz)

theorem Alike.append {ports : List (Port τ β)} {ends : List (End τ μ)} (h : Alike D w c)
    (hnew : List.Forall₂ D ports ends) :
    Alike D { w with ports := w.ports ++ ports } { c with ends := c.ends ++ ends } where
  shared := h.shared
  length := by
    rw [List.length_append, List.length_append, hnew.length_eq, h.length]
  carries k y z hy hz := by
    by_cases hk : k < w.ports.length
    · rw [List.getElem?_append_left hk] at hy
      rw [List.getElem?_append_left (h.length ▸ hk)] at hz
      exact h.carries k y z hy hz
    · rw [List.getElem?_append_right (by omega)] at hy
      rw [List.getElem?_append_right (by have := h.length; omega), ← h.length] at hz
      obtain ⟨hi, rfl⟩ := List.getElem?_eq_some_iff.mp hy
      obtain ⟨hj, rfl⟩ := List.getElem?_eq_some_iff.mp hz
      exact hnew.get hi hj

section
variable [DecidableEq μ]

theorem Carries.read (hlawful : K.Lawful good) (h : Carries K x z) (hgood : ∀ m ∈ z.inbox, good m)
    (hpartner : z.partner ≠ none) {o : Option μ} {rest : List β} (hread : unread K x.buffer o = some rest) :
    ∃ left, taken z.inbox o = some left ∧ rest ++ x.flight = left.flatMap K.encode := by
  have hstream := h.stream hpartner
  cases o with
  | none =>
    obtain rfl := Option.some.inj hread
    exact ⟨z.inbox, rfl, hstream⟩
  | some m =>
    obtain ⟨⟨m', rest'⟩, hdecode, hif⟩ := Option.bind_eq_some_iff.mp hread
    split at hif
    · next heq =>
      obtain rfl := Option.some.inj hif
      simp only at heq
      subst heq
      have hgrown := hlawful.grows _ _ _ hdecode x.flight
      rw [hstream] at hgrown
      cases hinbox : z.inbox with
      | nil =>
        rw [hinbox, List.flatMap_nil, hlawful.nothing] at hgrown
        cases hgrown
      | cons first left =>
        have hback := hlawful.back first (hgood first (by rw [hinbox]; exact List.mem_cons_self))
          (left.flatMap K.encode)
        rw [hinbox, List.flatMap_cons, hback] at hgrown
        obtain ⟨rfl, hrest⟩ := Prod.mk.inj (Option.some.inj hgrown)
        exact ⟨left, if_pos rfl, hrest.symm⟩
    · cases hif

end

theorem not_routed (hlinked : Linked c) {u : End τ μ} (hu : c.ends[k]? = some u)
    (hstranger : u.partner = none) (hz : c.ends[e]? = some z) (via : ℕ) :
    z.partner ≠ some k ∧ c.route z via ≠ some k := by
  have hnot : ∀ (j : ℕ) (v : End τ μ), c.ends[j]? = some v → v.partner ≠ some k := by
    intro j v hv hpartner
    obtain ⟨-, u', hu', hback⟩ := hlinked j k v hv hpartner
    obtain rfl := Option.some.inj (hu.symm.trans hu')
    rw [hstranger] at hback
    cases hback
  refine ⟨hnot e z hz, fun hroute => ?_⟩
  obtain ⟨v, hv, hpartner⟩ := Option.bind_eq_some_iff.mp hroute
  exact hnot via v (Option.filter_eq_some_iff.mp hv).1 hpartner

theorem flatMap_ite (f : μ → List β) (q : Prop) [Decidable q] (l : List μ) :
    (if q then l else []).flatMap f = if q then l.flatMap f else [] := by
  split
  · rfl
  · rfl

theorem Same.stepped {u : End τ μ} {rest : List β} {left : List μ} {p : τ} (h : Same y u) :
    Same (stepped K P w e a via x rest p k y) (FifoNetworks.acted P c e a via z left p k u) where
  node := h.node
  partner := h.partner
  proc := by
    show (if k = e then p else y.proc) = if k = e then p else u.proc
    rw [h.proc]

theorem stepped_stream {u : End τ μ} {rest : List β} {left : List μ} {p : τ} (h : Alike Same w c)
    (hxz : Same x z) (hrest : k = e → rest ++ x.flight = left.flatMap K.encode)
    (hstream : y.buffer ++ y.flight = u.inbox.flatMap K.encode)
    (hat : k = e → y = x) :
    (stepped K P w e a via x rest p k y).buffer ++ (stepped K P w e a via x rest p k y).flight =
      (FifoNetworks.acted P c e a via z left p k u).inbox.flatMap K.encode := by
  have hold : (if k = e then rest else y.buffer) ++ y.flight =
      (if k = e then left else u.inbox).flatMap K.encode := by
    by_cases hk : k = e
    · rw [if_pos hk, if_pos hk, hat hk]
      exact hrest hk
    · rw [if_neg hk, if_neg hk]
      exact hstream
  simp only [WireNetworks.stepped, FifoNetworks.acted, List.flatMap_append, flatMap_ite,
    h.route hxz via, hxz.partner, hxz.proc, ← hold, List.append_assoc]

theorem acted_carries (h : Refines K w c) (hlinked : Linked c) (hx : w.ports[e]? = some x)
    (hz : c.ends[e]? = some z) (hxz : Carries K x z) {rest : List β} {left : List μ} {s : σ} {p : τ}
    (hrest : z.partner ≠ none → rest ++ x.flight = left.flatMap K.encode)
    (hleft : z.partner = none → left = []) :
    Refines K ⟨Function.update w.shared x.node s, w.ports.mapIdx (stepped K P w e a via x rest p)⟩
      ⟨Function.update c.shared z.node s, c.ends.mapIdx (FifoNetworks.acted P c e a via z left p)⟩ := by
  rw [h.shared, hxz.node]
  refine h.mapIdx fun k y u hy hu hcarries => ?_
  have hat : k = e → y = x ∧ u = z := by
    rintro rfl
    exact ⟨Option.some.inj (hy.symm.trans hx), Option.some.inj (hu.symm.trans hz)⟩
  refine ⟨hcarries.toSame.stepped, fun hpartner => ?_, fun hstranger => ?_⟩
  · refine stepped_stream (h.mono fun _ _ hd => hd.toSame) hxz.toSame (fun hk => ?_)
      (hcarries.stream hpartner) fun hk => (hat hk).1
    obtain ⟨-, rfl⟩ := hat hk
    exact hrest hpartner
  · obtain ⟨hpartner, hroute⟩ := not_routed hlinked hu hstranger hz via
    have hold : (if k = e then left else u.inbox) = [] := by
      by_cases hk : k = e
      · obtain ⟨-, rfl⟩ := hat hk
        rw [if_pos hk]
        exact hleft hstranger
      · rw [if_neg hk]
        exact hcarries.empty hstranger
    simp only [FifoNetworks.acted, hold, if_neg hpartner, if_neg hroute, List.append_nil]

/-- Hearing a message and taking it leaves an end as taking nothing does. -/
theorem acted_heard {m : μ} {left : List μ} {p : τ} :
    (c.ends.mapIdx (heard e m)).mapIdx (FifoNetworks.acted P { c with ends := c.ends.mapIdx (heard e m) }
      e a via { z with inbox := [m] } left p) =
      c.ends.mapIdx (FifoNetworks.acted P c e a via z left p) := by
  have hroute : Net.route { c with ends := c.ends.mapIdx (heard e m) } { z with inbox := [m] } via =
      c.route z via := by
    unfold Net.route
    rw [List.getElem?_mapIdx]
    cases c.ends[via]? with
    | none => rfl
    | some y =>
      obtain ⟨hnode, hpartner, -⟩ := heard_links e m via y
      rw [Option.map_some, Option.filter_some, Option.filter_some, hnode]
      split
      · exact hpartner
      · rfl
  refine List.ext_getElem? fun k => ?_
  rw [List.getElem?_mapIdx, List.getElem?_mapIdx, List.getElem?_mapIdx]
  cases c.ends[k]? with
  | none => rfl
  | some y =>
    obtain ⟨hnode, hpartner, hproc⟩ := heard_links e m k y
    refine congrArg some ?_
    simp only [FifoNetworks.acted, hroute, hproc, End.mk.injEq]
    refine ⟨hnode, hpartner, trivial, ?_⟩
    by_cases hk : k = e
    · simp only [if_pos hk]
    · simp only [if_neg hk, heard]

structure Matches (K : Codec μ β) (ok' : Wires σ τ β → Event τ α β → Prop)
    (ok : Net σ τ μ → Move τ α μ → Prop) : Prop where
  connect : ∀ w c n m p q, ok' w (.connect n m p q) → ok c (.connect n m p q)
  accept : ∀ w c n p, ok' w (.accept n p) → ok c (.accept n p)
  hears : ∀ c e b m rest, K.decode b = some (m, rest) → ok c (.hears e m)
  act : ∀ w c e a via, (∀ (k : ℕ) (z : End τ μ), c.ends[k]? = some z →
    ∃ y, w.ports[k]? = some y ∧ y.proc = z.proc) → ok' w (.act e a via) → ok c (.act e a via)

section
variable [DecidableEq μ] {ok' : Wires σ τ β → Event τ α β → Prop} {ok : Net σ τ μ → Move τ α μ → Prop}

theorem happen_act (h : happen K P w (.act e a via) = some w') :
    ∃ x rest s p, w.ports[e]? = some x ∧ unread K x.buffer (P.takes a) = some rest ∧
      P.step a (w.shared x.node) x.proc = some (s, p) ∧
      w' = ⟨Function.update w.shared x.node s, w.ports.mapIdx (stepped K P w e a via x rest p)⟩ := by
  simp only [happen] at h
  split at h
  · cases h
  · next x hx =>
    split at h
    · next rest s p hrest hstep => exact ⟨x, rest, s, p, hx, hrest, hstep, (Option.some.inj h).symm⟩
    · cases h

theorem happen_of_unread {rest : List β} {s : σ} {p : τ} (hx : w.ports[e]? = some x)
    (hread : unread K x.buffer (P.takes a) = some rest)
    (hstep : P.step a (w.shared x.node) x.proc = some (s, p)) (via : ℕ) :
    happen K P w (.act e a via) = some
      ⟨Function.update w.shared x.node s, w.ports.mapIdx (stepped K P w e a via x rest p)⟩ := by
  simp only [happen, hx, hread, hstep]

theorem apply_of_taken {left : List μ} {s : σ} {p : τ} (hz : c.ends[e]? = some z)
    (htaken : taken z.inbox (P.takes a) = some left)
    (hstep : P.step a (c.shared z.node) z.proc = some (s, p)) (via : ℕ) :
    FifoNetworks.apply P c (.act e a via) = some
      ⟨Function.update c.shared z.node s, c.ends.mapIdx (FifoNetworks.acted P c e a via z left p)⟩ := by
  simp only [FifoNetworks.apply, hz, htaken, hstep]

/-- An action on streams is an action on messages; what a stranger sends is heard when it is read. -/
theorem act_refines (hlawful : K.Lawful good) (hmatches : Matches K ok' ok) (h : Refines K w c)
    (hreach : Reach P ok start c) (hlinked : Linked c)
    (hgood : ∀ (k : ℕ) (z : End τ μ), c.ends[k]? = some z → ∀ m ∈ z.inbox, good m)
    (hok : ok' w (.act e a via)) (hhappen : happen K P w (.act e a via) = some w') :
    ∃ c', Reach P ok start c' ∧ Refines K w' c' := by
  obtain ⟨x, rest, s, p, hx, hread, hstep, rfl⟩ := happen_act hhappen
  obtain ⟨z, hz, hxz⟩ := h.to_end hx
  rw [h.shared, hxz.node, hxz.proc] at hstep
  have hprocs : ∀ (k : ℕ) (z : End τ μ), c.ends[k]? = some z →
      ∃ y, w.ports[k]? = some y ∧ y.proc = z.proc := by
    intro k z hz
    obtain ⟨y, hy, hcarries⟩ := h.to_port hz
    exact ⟨y, hy, hcarries.proc⟩
  have hacts : ∀ left, taken z.inbox (P.takes a) = some left →
      (z.partner ≠ none → rest ++ x.flight = left.flatMap K.encode) → (z.partner = none → left = []) →
      ∃ c', Reach P ok start c' ∧ Refines K ⟨Function.update w.shared x.node s,
        w.ports.mapIdx (stepped K P w e a via x rest p)⟩ c' := by
    intro left htaken hrest hleft
    refine ⟨_, .next (.act e a via) hreach (hmatches.act w c e a via hprocs hok)
      (apply_of_taken hz htaken hstep via), acted_carries h hlinked hx hz hxz hrest hleft⟩
  by_cases hpartner : z.partner = none
  · have hempty := hxz.empty hpartner
    cases htakes : P.takes a with
    | none =>
      refine hacts [] ?_ (absurd hpartner) fun _ => rfl
      rw [htakes, hempty]
      rfl
    | some m =>
      rw [htakes] at hread
      obtain ⟨⟨m', rest'⟩, hdecode, hif⟩ := Option.bind_eq_some_iff.mp hread
      split at hif
      · next heq =>
        simp only at heq
        subst heq
        -- the message is heard first
        have hhears : FifoNetworks.apply P c (.hears e m') =
            some { c with ends := c.ends.mapIdx (heard e m') } := by
          obtain ⟨n, partner, q, inbox⟩ := z
          obtain rfl : partner = none := hpartner
          simp only [FifoNetworks.apply, hz]
        have hz' : ({ c with ends := c.ends.mapIdx (heard e m') } : Net σ τ μ).ends[e]? =
            some { z with inbox := [m'] } := by
          rw [List.getElem?_mapIdx, hz, Option.map_some, heard, if_pos rfl, hempty]
          rfl
        have hprocs' : ∀ (k : ℕ) (u : End τ μ), (c.ends.mapIdx (heard e m'))[k]? = some u →
            ∃ y, w.ports[k]? = some y ∧ y.proc = u.proc := by
          intro k u hu
          rw [List.getElem?_mapIdx] at hu
          obtain ⟨v, hv, rfl⟩ := Option.map_eq_some_iff.mp hu
          obtain ⟨y, hy, hproc⟩ := hprocs k v hv
          exact ⟨y, hy, hproc.trans (heard_links e m' k v).2.2.symm⟩
        have htaken : taken [m'] (P.takes a) = some [] := by
          rw [htakes]
          exact if_pos rfl
        have hheard := Reach.next (.hears e m') hreach (hmatches.hears c e _ m' rest' hdecode) hhears
        have hacted := apply_of_taken hz' htaken hstep via
        rw [acted_heard] at hacted
        refine ⟨_, .next (.act e a via) hheard (hmatches.act w _ e a via hprocs' hok) hacted, ?_⟩
        exact acted_carries h hlinked hx hz hxz (absurd hpartner) fun _ => rfl
      · cases hif
  · obtain ⟨left, htaken, hrest⟩ := hxz.read hlawful (hgood e z hz) hpartner hread
    exact hacts left htaken (fun _ => hrest) fun hnone => absurd hnone hpartner

/-- Every event on streams is a number of moves on messages. -/
theorem happen_refines (hlawful : K.Lawful good) (hmatches : Matches K ok' ok) (h : Refines K w c)
    (hreach : Reach P ok start c) (hlinked : Linked c)
    (hgood : ∀ (k : ℕ) (z : End τ μ), c.ends[k]? = some z → ∀ m ∈ z.inbox, good m)
    {m : Event τ α β} (hok : ok' w m) (hhappen : happen K P w m = some w') :
    ∃ c', Reach P ok start c' ∧ Refines K w' c' := by
  cases m with
  | connect n m p q =>
    obtain rfl := Option.some.inj hhappen
    refine ⟨_, .next (.connect n m p q) hreach (hmatches.connect w c n m p q hok) rfl, h.append ?_⟩
    rw [h.length]
    exact .cons ⟨⟨rfl, rfl, rfl⟩, fun _ => rfl, fun _ => rfl⟩
      (.cons ⟨⟨rfl, rfl, rfl⟩, fun _ => rfl, fun _ => rfl⟩ .nil)
  | accept n p =>
    obtain rfl := Option.some.inj hhappen
    refine ⟨_, .next (.accept n p) hreach (hmatches.accept w c n p hok) rfl, h.append ?_⟩
    exact .cons ⟨⟨rfl, rfl, rfl⟩, fun _ => rfl, fun _ => rfl⟩ .nil
  | floods e units =>
    simp only [happen] at hhappen
    split at hhappen
    · next x hx =>
      obtain rfl := Option.some.inj hhappen
      refine ⟨c, hreach, h.ports fun k y z hy hcarries => ?_⟩
      unfold flooded
      split
      · next hk =>
        subst hk
        obtain rfl := Option.some.inj (hy.symm.trans hx)
        have hstranger : z.partner = none := hcarries.partner.symm
        exact ⟨⟨hcarries.node, hcarries.partner, hcarries.proc⟩, fun hno => absurd hstranger hno,
          hcarries.empty⟩
      · exact hcarries
    · cases hhappen
  | arrives e n =>
    obtain rfl := Option.some.inj hhappen
    refine ⟨c, hreach, h.ports fun k y z hy hcarries => ?_⟩
    refine ⟨hcarries.toSame.arrived e n k, fun hpartner => ?_, hcarries.empty⟩
    rw [arrived_stream]
    exact hcarries.stream hpartner
  | act e a via => exact act_refines hlawful hmatches h hreach hlinked hgood hok hhappen

theorem Unfolds.play {w₀ : Wires σ τ β} {events : List (Event τ α β)} (h : Unfolds K P ok' w₀ w)
    (hok : ∀ m ∈ events, ∀ w, ok' w m) (hplay : WireNetworks.play K P w events = some w') :
    Unfolds K P ok' w₀ w' := by
  induction events generalizing w with
  | nil =>
    obtain rfl := Option.some.inj hplay
    exact h
  | cons m rest ih =>
    obtain ⟨w₁, hhappen, hrest⟩ := Option.bind_eq_some_iff.mp hplay
    refine ih (.next m h (hok m List.mem_cons_self w) hhappen) (fun m' hm => ?_) hrest
    exact hok m' (List.mem_cons_of_mem m hm)

/-- Every network over streams refines one that messages lead to. -/
theorem refines_of_unfolds (hlawful : K.Lawful good) (hmatches : Matches K ok' ok) {shared : ℕ → σ}
    (hgood : ∀ c, Reach P ok ⟨shared, []⟩ c →
      ∀ (k : ℕ) (z : End τ μ), c.ends[k]? = some z → ∀ m ∈ z.inbox, good m)
    (h : Unfolds K P ok' ⟨shared, []⟩ w) : ∃ c, Reach P ok ⟨shared, []⟩ c ∧ Refines K w c := by
  induction h with
  | refl =>
    refine ⟨_, .refl, rfl, rfl, fun k y z hy => ?_⟩
    cases hy
  | next m _ hok hhappen ih =>
    obtain ⟨c, hreach, hrefines⟩ := ih
    exact happen_refines hlawful hmatches hrefines hreach hreach.linked (hgood c hreach) hok hhappen

section
variable (K : Codec μ β)

/-- A port carries the messages of an end, whoever has sent them. -/
structure Brings (y : Port τ β) (z : End τ μ) : Prop extends Same y z where
  stream : y.buffer ++ y.flight = z.inbox.flatMap K.encode

abbrev Mirrors (w : Wires σ τ β) (c : Net σ τ μ) : Prop := Alike (Brings K) w c

end

structure Realizes (ok' : Wires σ τ β → Event τ α β → Prop) (ok : Net σ τ μ → Move τ α μ → Prop) :
    Prop where
  connect : ∀ w c n m p q, ok c (.connect n m p q) → ok' w (.connect n m p q)
  accept : ∀ w c n p, ok c (.accept n p) → ok' w (.accept n p)
  floods : ∀ w e units, ok' w (.floods e units)
  arrives : ∀ w e n, ok' w (.arrives e n)
  act : ∀ w c e a via, (∀ (k : ℕ) (y : Port τ β), w.ports[k]? = some y →
    ∃ z, c.ends[k]? = some z ∧ z.proc = y.proc) → ok c (.act e a via) → ok' w (.act e a via)

omit [DecidableEq μ] in
theorem acted_brings (h : Mirrors K w c) (hx : w.ports[e]? = some x) (hz : c.ends[e]? = some z)
    (hxz : Same x z) {rest : List β} {left : List μ} {s : σ} {p : τ}
    (hrest : rest ++ x.flight = left.flatMap K.encode) :
    Mirrors K ⟨Function.update w.shared x.node s, w.ports.mapIdx (stepped K P w e a via x rest p)⟩
      ⟨Function.update c.shared z.node s, c.ends.mapIdx (FifoNetworks.acted P c e a via z left p)⟩ := by
  rw [h.shared, hxz.node]
  refine h.mapIdx fun k y u hy hu hbrings => ?_
  refine ⟨hbrings.toSame.stepped, stepped_stream (h.mono fun _ _ hd => hd.toSame) hxz
    (fun _ => hrest) hbrings.stream ?_⟩
  rintro rfl
  exact Option.some.inj (hy.symm.trans hx)

/-- Once everything has arrived, what comes first can be read. -/
theorem unread_all (hlawful : K.Lawful good) (hgood : ∀ m ∈ z.inbox, good m) {o : Option μ}
    {left : List μ} (hinbox : z.inbox = o.toList ++ left) :
    unread K (z.inbox.flatMap K.encode) o = some (left.flatMap K.encode) := by
  rw [hinbox]
  cases o with
  | none => rfl
  | some m =>
    have hm : good m := hgood m (by rw [hinbox]; exact List.mem_cons_self)
    show (K.decode (K.encode m ++ left.flatMap K.encode)).bind _ = _
    rw [hlawful.back m hm]
    exact if_pos rfl

/-- An action on messages is an action on streams, after everything has arrived. -/
theorem act_realized {w₀ : Wires σ τ β} (hlawful : K.Lawful good) (hrealizes : Realizes ok' ok)
    (h : Mirrors K w c) (hunfolds : Unfolds K P ok' w₀ w)
    (hgood : ∀ (k : ℕ) (z : End τ μ), c.ends[k]? = some z → ∀ m ∈ z.inbox, good m) {c' : Net σ τ μ}
    (hok : ok c (.act e a via)) (happ : FifoNetworks.apply P c (.act e a via) = some c') :
    ∃ w', Unfolds K P ok' w₀ w' ∧ Mirrors K w' c' := by
  obtain ⟨z, left, s, p, hacted⟩ := apply_act happ
  have hz := hacted.at_end
  obtain ⟨x, hx, hxz⟩ := h.to_port hz
  -- the whole flight arrives
  have harrives := Unfolds.next (.arrives e x.flight.length) hunfolds (hrealizes.arrives w e _) rfl
  have h₁ : Mirrors K { w with ports := w.ports.mapIdx (arrived e x.flight.length) } c := by
    refine h.ports fun k y u _ hbrings => ⟨hbrings.toSame.arrived e _ k, ?_⟩
    rw [arrived_stream]
    exact hbrings.stream
  have hx₁ : ({ w with ports := w.ports.mapIdx (arrived e x.flight.length) } : Wires σ τ β).ports[e]? =
      some { x with buffer := z.inbox.flatMap K.encode, flight := [] } := by
    rw [List.getElem?_mapIdx, hx, Option.map_some, arrived, if_pos rfl, List.take_length,
      List.drop_length, hxz.stream]
  have hread := unread_all hlawful (hgood e z hz) hacted.inbox
  have hprocs : ∀ (k : ℕ) (y : Port τ β), (w.ports.mapIdx (arrived e x.flight.length))[k]? = some y →
      ∃ z, c.ends[k]? = some z ∧ z.proc = y.proc := by
    intro k y hy
    obtain ⟨u, hu, hbrings⟩ := h₁.to_end hy
    exact ⟨u, hu, hbrings.proc.symm⟩
  have hstep := hacted.step
  rw [← h.shared, ← hxz.node, ← hxz.proc] at hstep
  have hhappen := happen_of_unread hx₁ hread hstep via
  obtain ⟨shared', ends'⟩ := c'
  obtain rfl : shared' = Function.update c.shared z.node s := hacted.shared
  obtain rfl : ends' = c.ends.mapIdx (FifoNetworks.acted P c e a via z left p) := hacted.ends
  refine ⟨_, .next (.act e a via) harrives (hrealizes.act _ c e a via hprocs hok) hhappen, ?_⟩
  exact acted_brings h₁ hx₁ hz ⟨hxz.node, hxz.partner, hxz.proc⟩ (List.append_nil _)

/-- Every move on messages is a number of events on streams. -/
theorem apply_realized {w₀ : Wires σ τ β} (hlawful : K.Lawful good) (hrealizes : Realizes ok' ok)
    (h : Mirrors K w c) (hunfolds : Unfolds K P ok' w₀ w)
    (hgood : ∀ (k : ℕ) (z : End τ μ), c.ends[k]? = some z → ∀ m ∈ z.inbox, good m) {c' : Net σ τ μ}
    {m : Move τ α μ} (hok : ok c m) (happ : FifoNetworks.apply P c m = some c') :
    ∃ w', Unfolds K P ok' w₀ w' ∧ Mirrors K w' c' := by
  cases m with
  | connect n m p q =>
    obtain rfl := apply_connect happ
    refine ⟨_, .next (.connect n m p q) hunfolds (hrealizes.connect w c n m p q hok) rfl, h.append ?_⟩
    rw [h.length]
    exact .cons ⟨⟨rfl, rfl, rfl⟩, rfl⟩ (.cons ⟨⟨rfl, rfl, rfl⟩, rfl⟩ .nil)
  | accept n p =>
    obtain rfl := apply_accept happ
    refine ⟨_, .next (.accept n p) hunfolds (hrealizes.accept w c n p hok) rfl, h.append ?_⟩
    exact .cons ⟨⟨rfl, rfl, rfl⟩, rfl⟩ .nil
  | hears e m =>
    obtain ⟨z, hz, hstranger, rfl⟩ := apply_hears happ
    obtain ⟨x, hx, hxz⟩ := h.to_port hz
    have hhappen : happen K P w (.floods e (K.encode m)) =
        some { w with ports := w.ports.mapIdx (flooded e (K.encode m)) } := by
      obtain ⟨n, partner, q, buffer, flight⟩ := x
      obtain rfl : partner = none := hxz.partner.trans hstranger
      simp only [happen, hx]
    refine ⟨_, .next (.floods e (K.encode m)) hunfolds (hrealizes.floods w e _) hhappen, ?_⟩
    show Mirrors K ⟨w.shared, _⟩ ⟨c.shared, _⟩
    rw [h.shared]
    refine h.mapIdx fun k y u _ _ hbrings => ?_
    unfold flooded heard
    split
    · refine ⟨⟨hbrings.node, hbrings.partner, hbrings.proc⟩, ?_⟩
      rw [← List.append_assoc, hbrings.stream, List.flatMap_append, List.flatMap_singleton]
    · exact hbrings
  | act e a via => exact act_realized hlawful hrealizes h hunfolds hgood hok happ

/-- Every network that messages lead to is mirrored by one over streams. -/
theorem mirrors_of_reach (hlawful : K.Lawful good) (hrealizes : Realizes ok' ok) {shared : ℕ → σ}
    (hgood : ∀ c, Reach P ok ⟨shared, []⟩ c →
      ∀ (k : ℕ) (z : End τ μ), c.ends[k]? = some z → ∀ m ∈ z.inbox, good m)
    (h : Reach P ok ⟨shared, []⟩ c) : ∃ w, Unfolds K P ok' ⟨shared, []⟩ w ∧ Mirrors K w c := by
  induction h with
  | refl =>
    refine ⟨_, .refl, rfl, rfl, fun k y z hy => ?_⟩
    cases hy
  | next m hreach hok happ ih =>
    obtain ⟨w, hunfolds, hmirrors⟩ := ih
    exact apply_realized hlawful hrealizes hmirrors hunfolds (hgood _ hreach) hok happ

end

end WireNetworks
