import Aiobt.FifoNetworks

/-! # The two ends of a connection

What a move does to two ends of different nodes that have each other as partners, told from one of
them. -/
namespace NetworkLinks

open FifoNetworks

variable {σ τ α μ : Type}

/-- Two ends with the states of their nodes, seen from the first. -/
structure Link (σ τ μ : Type) where
  near : σ
  far : σ
  here : τ
  there : τ
  inbox : List μ
  outbox : List μ

def link (c : Net σ τ μ) (x y : End τ μ) : Link σ τ μ where
  near := c.shared x.node
  far := c.shared y.node
  here := x.proc
  there := y.proc
  inbox := x.inbox
  outbox := y.inbox

structure Between (c : Net σ τ μ) (e j : ℕ) (x y : End τ μ) : Prop where
  near : c.ends[e]? = some x
  far : c.ends[j]? = some y
  to_far : x.partner = some j
  to_near : y.partner = some e
  apart : x.node ≠ y.node

inductive Side (P : Protocol σ τ α μ) (c : Net σ τ μ) (e : ℕ) (x : End τ μ) (m : Move τ α μ)
    (v : Link σ τ μ) : Link σ τ μ → Prop
  | acts {a via rest s p more} : m = .act e a via → P.step a v.near v.here = some (s, p) →
      v.inbox = (P.takes a).toList ++ rest → more = [] ∨ more = P.relays a v.here →
      Side P c e x m v ⟨s, v.far, p, v.there, rest, v.outbox ++ P.sends a v.here p ++ more⟩
  | beside {k a via z s p more} : m = .act k a via → k ≠ e → c.ends[k]? = some z →
      z.node = x.node → P.step a v.near z.proc = some (s, p) →
      more = [] ∨ more = P.relays a z.proc →
      Side P c e x m v { v with near := s, outbox := v.outbox ++ more }

variable {P : Protocol σ τ α μ} {c c' : Net σ τ μ} {e j k via : ℕ} {a : α} {m : Move τ α μ}
  {x x' y y' z : End τ μ} {rest : List μ} {s : σ} {p : τ}

theorem Between.symm (h : Between c e j x y) : Between c j e y x :=
  ⟨h.far, h.near, h.to_near, h.to_far, h.apart.symm⟩

theorem Between.ne (h : Between c e j x y) : e ≠ j := by
  rintro rfl
  exact h.apart (congrArg End.node (Option.some.inj (h.near.symm.trans h.far)))

theorem Between.remote (h : Between c e j x y) : c.remote x = some (c.shared y.node) := by
  rw [Net.remote, h.to_far, Option.bind_some, h.far, Option.map_some]

theorem Between.sender (h : Between c e j x y) (hlinked : Linked c) (hz : c.ends[k]? = some z)
    (hpartner : z.partner = some j) : k = e := by
  obtain ⟨-, y', hy', hback⟩ := hlinked k j z hz hpartner
  obtain rfl := Option.some.inj (h.far.symm.trans hy')
  exact Option.some.inj (hback.symm.trans h.to_near)

/-- What is relayed to an end comes from the node of its partner. -/
theorem Between.relayer (h : Between c e j x y) (hlinked : Linked c)
    (hroute : c.route z via = some j) : z.node = x.node := by
  obtain ⟨v, hv, hpartner⟩ := Option.bind_eq_some_iff.mp hroute
  obtain ⟨hv, hnode⟩ := Option.filter_eq_some_iff.mp hv
  obtain rfl := h.sender hlinked hv hpartner
  obtain rfl := Option.some.inj (h.near.symm.trans hv)
  exact (of_decide_eq_true hnode).symm

theorem Between.acted (h : Between c e j x y) (hacted : Acted P c k a via z rest s p c') :
    Between c' e j (acted P c k a via z rest p e x) (acted P c k a via z rest p j y) where
  near := hacted.getElem? h.near
  far := hacted.getElem? h.far
  to_far := h.to_far
  to_near := h.to_near
  apart := h.apart

theorem Between.side (h : Between c e j x y) (hlinked : Linked c)
    (hacted : Acted P c k a via z rest s p c') (hnode : z.node = x.node) :
    Side P c e x (.act k a via) (link c x y)
      (link c' (FifoNetworks.acted P c k a via z rest p e x)
        (FifoNetworks.acted P c k a via z rest p j y)) := by
  have hnear : c'.shared x.node = s := by
    rw [hacted.shared, hnode]
    exact Function.update_self ..
  have hfar : c'.shared y.node = c.shared y.node := by
    rw [hacted.shared, hnode]
    exact Function.update_of_ne h.apart.symm _ _
  have hsent : ¬ z.partner = some e := by
    intro hpartner
    obtain rfl := h.symm.sender hlinked hacted.at_end hpartner
    obtain rfl := Option.some.inj (h.far.symm.trans hacted.at_end)
    exact h.apart hnode.symm
  have hrelayed : ¬ c.route z via = some e := by
    intro hroute
    exact h.apart (hnode.symm.trans (h.symm.relayer hlinked hroute))
  have hmore : (if c.route z via = some j then P.relays a z.proc else []) = [] ∨
      (if c.route z via = some j then P.relays a z.proc else []) = P.relays a z.proc := by
    split
    · exact Or.inr rfl
    · exact Or.inl rfl
  have hstep := hacted.step
  rw [hnode] at hstep
  by_cases hk : k = e
  · subst hk
    obtain rfl := Option.some.inj (h.near.symm.trans hacted.at_end)
    have hlink : link c' (FifoNetworks.acted P c k a via x rest p k x)
        (FifoNetworks.acted P c k a via x rest p j y) =
          ⟨s, (link c x y).far, p, (link c x y).there, rest,
            (link c x y).outbox ++ P.sends a (link c x y).here p ++
              (if c.route x via = some j then P.relays a x.proc else [])⟩ := by
      have hself : ¬ some j = some k := fun hno => h.ne (Option.some.inj hno).symm
      simp only [link, FifoNetworks.acted, if_pos, if_neg h.ne.symm, if_neg hself, if_neg hrelayed,
        List.append_nil, h.to_far, hnear, hfar]
    rw [hlink]
    exact .acts rfl hstep hacted.inbox hmore
  · have hj : j ≠ k := by
      rintro rfl
      obtain rfl := Option.some.inj (h.far.symm.trans hacted.at_end)
      exact h.apart hnode.symm
    have hother : ¬ z.partner = some j := fun hpartner =>
      hk (h.sender hlinked hacted.at_end hpartner)
    have hlink : link c' (FifoNetworks.acted P c k a via z rest p e x)
        (FifoNetworks.acted P c k a via z rest p j y) =
          { link c x y with
            near := s
            outbox := (link c x y).outbox ++
              (if c.route z via = some j then P.relays a z.proc else []) } := by
      simp only [link, FifoNetworks.acted, if_neg (Ne.symm hk), if_neg hj, if_neg hsent,
        if_neg hrelayed, if_neg hother, List.append_nil, hnear, hfar]
    rw [hlink]
    exact .beside rfl hk hacted.at_end hnode hstep hmore

section

variable [DecidableEq μ]

/-- A move is one of a process at either node, or it leaves both ends alone. -/
theorem Between.move (h : Between c e j x y) (hlinked : Linked c) (happ : apply P c m = some c') :
    ∃ x' y', Between c' e j x' y' ∧ x'.node = x.node ∧ y'.node = y.node ∧
      (Side P c e x m (link c x y) (link c' x' y') ∨ Side P c j y m (link c y x) (link c' y' x') ∨
        link c' x' y' = link c x y) := by
  have happend : ∀ more : List (End τ μ), ∃ x' y',
      Between { c with ends := c.ends ++ more } e j x' y' ∧ x'.node = x.node ∧ y'.node = y.node ∧
        link { c with ends := c.ends ++ more } x' y' = link c x y := by
    intro more
    refine ⟨x, y, ⟨?_, ?_, h.to_far, h.to_near, h.apart⟩, rfl, rfl, rfl⟩
    · rw [List.getElem?_append_left (List.getElem?_eq_some_iff.mp h.near).1, h.near]
    · rw [List.getElem?_append_left (List.getElem?_eq_some_iff.mp h.far).1, h.far]
  cases m with
  | connect n m p q =>
    obtain rfl := apply_connect happ
    obtain ⟨x', y', hbetween, hx', hy', hlink⟩ := happend _
    exact ⟨x', y', hbetween, hx', hy', Or.inr (Or.inr hlink)⟩
  | accept n p =>
    obtain rfl := apply_accept happ
    obtain ⟨x', y', hbetween, hx', hy', hlink⟩ := happend _
    exact ⟨x', y', hbetween, hx', hy', Or.inr (Or.inr hlink)⟩
  | hears k msg =>
    obtain ⟨z, hz, hstranger, rfl⟩ := apply_hears happ
    have hheard : ∀ {i l : ℕ} {w : End τ μ}, c.ends[i]? = some w → w.partner = some l →
        (c.ends.mapIdx (heard k msg))[i]? = some w := by
      intro i l w hw hpartner
      have hi : i ≠ k := by
        rintro rfl
        obtain rfl := Option.some.inj (hz.symm.trans hw)
        cases hstranger.symm.trans hpartner
      rw [List.getElem?_mapIdx, hw, Option.map_some, heard, if_neg hi]
    refine ⟨x, y, ⟨?_, ?_, h.to_far, h.to_near, h.apart⟩, rfl, rfl, Or.inr (Or.inr rfl)⟩
    · exact hheard h.near h.to_far
    · exact hheard h.far h.to_near
  | act k a via =>
    obtain ⟨z, rest, s, p, hacted⟩ := apply_act happ
    refine ⟨_, _, h.acted hacted, rfl, rfl, ?_⟩
    by_cases hnear : z.node = x.node
    · exact Or.inl (h.side hlinked hacted hnear)
    · by_cases hfar : z.node = y.node
      · exact Or.inr (Or.inl (h.symm.side hlinked hacted hfar))
      · refine Or.inr (Or.inr ?_)
        have hstays : ∀ {i l : ℕ} {w w' : End τ μ}, Between c i l w w' → z.node ≠ w.node →
            z.node ≠ w'.node → c'.shared w.node = c.shared w.node ∧ i ≠ k ∧
              ¬ z.partner = some i ∧ ¬ c.route z via = some i := by
          intro i l w w' hb hw hw'
          refine ⟨?_, ?_, ?_, ?_⟩
          · rw [hacted.shared]
            exact Function.update_of_ne hw.symm _ _
          · rintro rfl
            exact hw (congrArg End.node (Option.some.inj (hacted.at_end.symm.trans hb.near)))
          · intro hpartner
            obtain rfl := hb.symm.sender hlinked hacted.at_end hpartner
            exact hw' (congrArg End.node (Option.some.inj (hacted.at_end.symm.trans hb.far)))
          · exact fun hroute => hw' (hb.symm.relayer hlinked hroute)
        obtain ⟨hs, he, hsent, hrelayed⟩ := hstays h hnear hfar
        obtain ⟨hs', hj, hsent', hrelayed'⟩ := hstays h.symm hfar hnear
        simp only [link, FifoNetworks.acted, if_neg he, if_neg hj, if_neg hsent, if_neg hsent',
          if_neg hrelayed, if_neg hrelayed', List.append_nil, hs, hs']

end

end NetworkLinks
