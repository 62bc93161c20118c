import Aiobt.EngineTurns
import Aiobt.Tilings

/-! # The blocks of a piece

What is requested of a piece, what is put together of the answers and what is cancelled. -/
namespace BlockTransfer

open ByteStrings PieceTracker PeerMessages FlatStore PieceEngine SessionTasks EngineTurns Tilings

variable {spec : PieceSpec} {n offset : ℕ}

/-- The offsets and lengths from an offset on, as both loops over a piece compute them. -/
def blocksFrom (spec : PieceSpec) : ℕ → ℕ → List (ℕ × ℕ)
  | 0, _ => []
  | n + 1, offset =>
    if (offset : ℤ) < spec.length then
      (offset, blockLen spec offset) :: blocksFrom spec n (offset + blockLen spec offset)
    else []

def blocks (spec : PieceSpec) : List (ℕ × ℕ) := blocksFrom spec spec.length.toNat 0

theorem blockLen_spec (h : (offset : ℤ) < spec.length) :
    0 < blockLen spec offset ∧ blockLen spec offset ≤ blockSize ∧
      offset + blockLen spec offset ≤ spec.length.toNat := by
  unfold blockLen blockSize
  omega

/-- With enough fuel the loop stops only at the end of the piece. -/
theorem blocksFrom_succ (h : (offset : ℤ) < spec.length) (hn : spec.length.toNat ≤ n + offset) :
    blocksFrom spec n offset = (offset, blockLen spec offset) ::
      blocksFrom spec n (offset + blockLen spec offset) := by
  induction n generalizing offset with
  | zero => omega
  | succ n ih =>
    obtain ⟨hpos, -, hle⟩ := blockLen_spec h
    rw [blocksFrom, if_pos h]
    refine congrArg _ ?_
    by_cases hnext : ((offset + blockLen spec offset : ℕ) : ℤ) < spec.length
    · rw [ih hnext (by omega)]
      rw [blocksFrom, if_pos hnext]
    · rw [blocksFrom, if_neg hnext]
      cases n with
      | zero => rfl
      | succ n => rw [blocksFrom, if_neg hnext]

theorem blocksFrom_end (h : ¬ (offset : ℤ) < spec.length) : blocksFrom spec n offset = [] := by
  cases n with
  | zero => rfl
  | succ n => rw [blocksFrom, if_neg h]

theorem blocksFrom_tiling (hn : spec.length.toNat ≤ n + offset)
    (hoffset : offset ≤ spec.length.toNat) :
    Tiling offset (blocksFrom spec n offset) spec.length.toNat := by
  induction n generalizing offset with
  | zero => exact show offset = spec.length.toNat by omega
  | succ n ih =>
    rw [blocksFrom]
    by_cases h : (offset : ℤ) < spec.length
    · obtain ⟨hpos, -, hle⟩ := blockLen_spec h
      rw [if_pos h]
      exact ⟨rfl, hpos, ih (by omega) hle⟩
    · rw [if_neg h]
      exact show offset = spec.length.toNat by omega

theorem blocks_tiling (spec : PieceSpec) : Tiling 0 (blocks spec) spec.length.toNat :=
  blocksFrom_tiling (Nat.le_refl _) (Nat.zero_le _)

theorem blocksFrom_small {block : ℕ × ℕ} (h : block ∈ blocksFrom spec n offset) :
    block.2 ≤ blockSize := by
  induction n generalizing offset with
  | zero => cases h
  | succ n ih =>
    rw [blocksFrom] at h
    by_cases hlt : (offset : ℤ) < spec.length
    · rw [if_pos hlt] at h
      rcases List.mem_cons.mp h with rfl | h
      · exact (blockLen_spec hlt).2.1
      · exact ih h
    · rw [if_neg hlt] at h
      cases h

theorem mem_blocksFrom {k : ℕ} (h : ((offset + blockSize * k : ℕ) : ℤ) < spec.length)
    (hn : spec.length.toNat ≤ n + offset) :
    (offset + blockSize * k, blockLen spec (offset + blockSize * k)) ∈ blocksFrom spec n offset := by
  induction k generalizing offset with
  | zero =>
    rw [Nat.mul_zero, Nat.add_zero] at h ⊢
    rw [blocksFrom_succ h hn]
    exact List.mem_cons_self
  | succ k ih =>
    have hlt : (offset : ℤ) < spec.length := by omega
    have hfull : blockLen spec offset = blockSize := by
      unfold blockLen
      rw [Nat.mul_succ] at h
      omega
    have hsum : offset + blockSize * (k + 1) = offset + blockSize + blockSize * k := by
      rw [Nat.mul_succ]
      omega
    rw [blocksFrom_succ hlt hn, hfull, hsum]
    exact List.mem_cons_of_mem _ (ih (hsum ▸ h) (by omega))

/-- A block begins at each multiple of the block size inside the piece. -/
theorem mem_blocks {k : ℕ} (h : ((blockSize * k : ℕ) : ℤ) < spec.length) :
    (blockSize * k, blockLen spec (blockSize * k)) ∈ blocks spec := by
  have hstart : ((0 + blockSize * k : ℕ) : ℤ) < spec.length := by
    rw [Nat.zero_add]
    exact h
  have hmem := mem_blocksFrom hstart (Nat.le_refl (spec.length.toNat + 0))
  rwa [Nat.zero_add] at hmem

/-- A task takes its own steps at points of one kind, none of which raises; between them other tasks
may change the session. What it adds to the Cancel messages is recorded. -/
inductive Passes (sha1 : Bytes → Bytes) (kind : StorageKind) (inside : Await → Bool) :
    Task → List (Action × List (Address × Message)) → Task → Prop
  | leaves {t} : inside t.point = false → Passes sha1 kind inside t [] t
  | pass {a s s' t t' t'' sent rest} : inside t.point = true → a ≠ .raises →
      taskStep sha1 kind a s t = some (s', t') → s'.cancels = s.cancels ++ sent →
      Passes sha1 kind inside t' rest t'' → Passes sha1 kind inside t ((a, sent) :: rest) t''

def requesting : Await → Bool
  | .sendRequest _ _ => true
  | _ => false

def cancelling : Await → Bool
  | .sendCancel _ _ _ _ _ => true
  | _ => false

variable {sha1 : Bytes → Bytes} {kind : StorageKind} {a : Action} {s s' : Session} {t t' t'' : Task}
  {steps : List (Action × List (Address × Message))}

def requestOf (spec : PieceSpec) (block : ℕ × ℕ) : Message :=
  .request spec.index.toNat block.1 block.2

theorem requesting_step (hp : t.point = .sendRequest spec offset) (hraise : a ≠ .raises)
    (hstep : taskStep sha1 kind a s t = some (s', t')) :
    t' = requestFrom t spec (offset + blockLen spec offset) ∨
      ∃ rates, t' = { t with rates := rates } := by
  cases a with
  | returns hint =>
    simp only [taskStep, resume, hp] at hstep
    exact Or.inl (Prod.mk.inj (Option.some.inj hstep)).2.symm
  | rechokes amChoking =>
    simp only [taskStep] at hstep
    split at hstep
    · cases hstep
    · exact Or.inr ⟨_, (Prod.mk.inj (Option.some.inj hstep)).2.symm⟩
  | raises => exact absurd rfl hraise
  | starts | receives | fetches | stores => simp only [taskStep, hp] at hstep; cases hstep
  | cancels addr connected hint => simp only [taskStep, cancelStep, hp] at hstep; cases hstep

theorem requestFrom_passes (h : Passes sha1 kind requesting t'' steps t') (t : Task)
    (ht : t'' = requestFrom t spec offset) (hn : spec.length.toNat ≤ n + offset) :
    t'.point = .receive ∧
      t'.log = t.log ++ (blocksFrom spec n offset).map fun b => .sent (requestOf spec b) := by
  induction h generalizing t offset with
  | @leaves u hout =>
    rw [ht, requestFrom] at hout ⊢
    by_cases hlt : (offset : ℤ) < spec.length
    · rw [if_pos hlt] at hout
      cases hout
    · rw [if_neg hlt, blocksFrom_end hlt, List.map_nil, List.append_nil]
      exact ⟨rfl, rfl⟩
  | @pass a s s' u u' u'' sent rest hin hraise hstep _ _ ih =>
    rw [requestFrom] at ht
    by_cases hlt : (offset : ℤ) < spec.length
    · rw [if_pos hlt] at ht
      subst ht
      rcases requesting_step rfl hraise hstep with rfl | ⟨rates, rfl⟩
      · obtain ⟨hpoint, hlog⟩ := ih _ rfl (by omega)
        refine ⟨hpoint, ?_⟩
        rw [hlog, blocksFrom_succ hlt hn, List.map_cons]
        simp [Task.send, requestOf]
      · have hsame : { t.send (.request spec.index.toNat offset (blockLen spec offset))
            (.sendRequest spec offset) with rates := rates } =
              requestFrom { t with rates := rates } spec offset := by
          rw [requestFrom, if_pos hlt]
          rfl
        exact ih { t with rates := rates } hsame hn
    · rw [if_neg hlt] at ht
      subst ht
      cases hin

section
variable {hint index : ℕ} {addrs left : Finset Address} {addr : Address}

theorem nextPiece_cancels (hint : ℕ) (s : Session) (t : Task) :
    (nextPiece hint s t).1.cancels = s.cancels := by
  unfold nextPiece
  split <;> rfl

theorem finishPiece_cancels (hint : ℕ) (s : Session) (t : Task) :
    (finishPiece hint s t).1.cancels = s.cancels := by
  unfold finishPiece
  split
  · rfl
  · split
    · rfl
    · exact nextPiece_cancels hint s _

theorem not_cancelling_of_finish (h : finishPiece hint s t = (s', t')) :
    cancelling t'.point = false := by
  have hstage := finishPiece_stage h
  cases hp : t'.point with
  | sendCancel =>
    rw [hp] at hstage
    rcases hstage with hno | hno
    · cases hno
    · cases hno
  | _ => rfl

/-- The broadcast goes on with the next offset, or is over. -/
theorem cancelFrom_point (haddrs : addrs ≠ ∅)
    (h : cancelFrom hint s t index spec addrs offset = (s', t')) :
    s'.cancels = s.cancels ∧
      ((offset : ℤ) < spec.length ∧ t'.point = .sendCancel index spec addrs offset addrs ∨
        ¬ (offset : ℤ) < spec.length ∧ cancelling t'.point = false) := by
  unfold cancelFrom at h
  by_cases hlt : (offset : ℤ) < spec.length
  · rw [if_pos ⟨haddrs, hlt⟩] at h
    obtain ⟨rfl, rfl⟩ := Prod.mk.inj h
    exact ⟨rfl, Or.inl ⟨hlt, rfl⟩⟩
  · rw [if_neg fun hboth => hlt hboth.2] at h
    have hsame := finishPiece_cancels hint s t
    rw [h] at hsame
    exact ⟨hsame, Or.inr ⟨hlt, not_cancelling_of_finish h⟩⟩

inductive Cancels (index : ℕ) (spec : PieceSpec) (addrs : Finset Address) (offset : ℕ)
    (left : Finset Address) (a : Action) (sent : List (Address × Message)) (point : Await) : Prop
  | cancel (peer : Address) (connected : Bool) (hint : ℕ) : a = .cancels peer connected hint →
      peer ∈ left →
      sent = (if connected then [(peer, .cancel index offset (blockLen spec offset))] else []) →
      (left.erase peer ≠ ∅ ∧ point = .sendCancel index spec addrs offset (left.erase peer) ∨
        left.erase peer = ∅ ∧
          (((offset + blockLen spec offset : ℕ) : ℤ) < spec.length ∧
              point = .sendCancel index spec addrs (offset + blockLen spec offset) addrs ∨
            ¬ ((offset + blockLen spec offset : ℕ) : ℤ) < spec.length ∧ cancelling point = false)) →
      Cancels index spec addrs offset left a sent point
  | rechoked : (∀ peer connected hint, a ≠ .cancels peer connected hint) → sent = [] →
      point = .sendCancel index spec addrs offset left →
        Cancels index spec addrs offset left a sent point

theorem cancelling_step {sent : List (Address × Message)}
    (hp : t.point = .sendCancel index spec addrs offset left) (hleft : left ⊆ addrs)
    (hraise : a ≠ .raises) (hstep : taskStep sha1 kind a s t = some (s', t'))
    (hsent : s'.cancels = s.cancels ++ sent) :
    Cancels index spec addrs offset left a sent t'.point := by
  cases a with
  | cancels peer connected hint =>
    simp only [taskStep, cancelStep, hp] at hstep
    by_cases hpeer : peer ∈ left
    · rw [if_pos hpeer] at hstep
      have haddrs : addrs ≠ ∅ := Finset.nonempty_iff_ne_empty.mp ⟨peer, hleft hpeer⟩
      let s₁ : Session := if connected then
          { s with cancels := s.cancels ++ [(peer, .cancel index offset (blockLen spec offset))] }
        else s
      have hcancels : s₁.cancels = s.cancels ++
          (if connected then [(peer, .cancel index offset (blockLen spec offset))] else []) := by
        cases connected with
        | true => rfl
        | false => exact (List.append_nil _).symm
      have hdone : s'.cancels = s₁.cancels → sent =
          (if connected then [(peer, .cancel index offset (blockLen spec offset))] else []) := by
        intro hsame
        rw [hsame, hcancels] at hsent
        exact (List.append_cancel_left hsent).symm
      by_cases herase : left.erase peer ≠ ∅
      · rw [if_pos herase] at hstep
        obtain ⟨rfl, rfl⟩ := Prod.mk.inj (Option.some.inj hstep)
        exact .cancel peer connected hint rfl hpeer (hdone rfl) (Or.inl ⟨herase, rfl⟩)
      · rw [if_neg herase] at hstep
        obtain ⟨hsame, hpoint⟩ := cancelFrom_point haddrs (Option.some.inj hstep)
        exact .cancel peer connected hint rfl hpeer (hdone hsame) (Or.inr ⟨not_not.mp herase, hpoint⟩)
    · rw [if_neg hpeer] at hstep
      cases hstep
  | rechokes amChoking =>
    simp only [taskStep] at hstep
    split at hstep
    · cases hstep
    · obtain ⟨rfl, rfl⟩ := Prod.mk.inj (Option.some.inj hstep)
      refine .rechoked (fun _ _ _ hno => by cases hno) ?_ hp
      exact List.append_cancel_left (hsent.symm.trans (List.append_nil _).symm)
  | raises => exact absurd rfl hraise
  | returns hint => simp only [taskStep, resume, hp] at hstep; cases hstep
  | starts | receives | fetches | stores => simp only [taskStep, hp] at hstep; cases hstep

def cancelOf (index : ℕ) (addr : Address) (block : ℕ × ℕ) : Address × Message :=
  (addr, .cancel index block.1 block.2)

/-- What a peer is sent that is connected throughout: what is left of this block, and those that
follow. -/
theorem cancels_passes (h : Passes sha1 kind cancelling t steps t') (haddr : addr ∈ addrs)
    (hp : t.point = .sendCancel index spec addrs offset left) (hleft : left ⊆ addrs)
    (hlt : (offset : ℤ) < spec.length) (hn : spec.length.toNat ≤ n + offset)
    (hconnected : ∀ step ∈ steps, ∀ hint, step.1 ≠ .cancels addr false hint) :
    (steps.flatMap Prod.snd).filter (fun sent => sent.1 = addr) =
      (if addr ∈ left then [cancelOf index addr (offset, blockLen spec offset)] else []) ++
        (blocksFrom spec n (offset + blockLen spec offset)).map (cancelOf index addr) := by
  induction h generalizing offset left with
  | leaves hout =>
    rw [hp] at hout
    cases hout
  | @pass a s s' t t' t'' sent rest _ hraise hstep hsent hrest ih =>
    have hrestConnected : ∀ step ∈ rest, ∀ hint, step.1 ≠ .cancels addr false hint :=
      fun step hmem => hconnected step (List.mem_cons_of_mem _ hmem)
    obtain ⟨hpos, -, hle⟩ := blockLen_spec hlt
    rw [List.flatMap_cons, List.filter_append]
    cases cancelling_step hp hleft hraise hstep hsent with
    | rechoked _ hnone hpoint =>
      rw [hnone]
      exact ih hpoint hleft hlt hn hrestConnected
    | cancel peer connected hint ha hpeer hsent hpoint =>
      have hown : sent.filter (fun sent => sent.1 = addr) =
          if peer = addr then [cancelOf index addr (offset, blockLen spec offset)] else [] := by
        by_cases hsame : peer = addr
        · subst hsame
          have hyes : connected = true := by
            by_contra hno
            have hfalse : connected = false := by simpa using hno
            exact hconnected (a, sent) List.mem_cons_self hint (by rw [ha, hfalse])
          rw [hsent, hyes, if_pos rfl, if_pos rfl]
          simp [cancelOf]
        · rw [if_neg hsame, hsent]
          cases connected with
          | true => simp [hsame]
          | false => rfl
      rw [hown]
      rcases hpoint with ⟨herase, hpoint⟩ | ⟨herase, hpoint⟩
      · rw [ih hpoint ((Finset.erase_subset _ _).trans hleft) hlt hn hrestConnected]
        by_cases hsame : peer = addr
        · subst hsame
          rw [if_pos rfl, if_pos hpeer, if_neg (Finset.notMem_erase _ _), List.nil_append]
        · rw [if_neg hsame, List.nil_append]
          simp only [Finset.mem_erase, ne_eq, Ne.symm hsame, not_false_eq_true, true_and]
      · have hlast :
            (if peer = addr then [cancelOf index addr (offset, blockLen spec offset)] else []) =
            if addr ∈ left then [cancelOf index addr (offset, blockLen spec offset)] else [] := by
          by_cases hsame : peer = addr
          · subst hsame
            rw [if_pos rfl, if_pos hpeer]
          · have hnot : addr ∉ left := by
              intro hmem
              have hin : addr ∈ left.erase peer := Finset.mem_erase.mpr ⟨Ne.symm hsame, hmem⟩
              rw [herase] at hin
              cases hin
            rw [if_neg hsame, if_neg hnot]
        rw [hlast]
        refine congrArg _ ?_
        rcases hpoint with ⟨hnext, hpoint⟩ | ⟨hend, hout⟩
        · rw [ih hpoint (Finset.Subset.refl _) hnext (by omega) hrestConnected, if_pos haddr,
            blocksFrom_succ hnext (by omega)]
          rfl
        · have hnil : rest = [] := by
            cases hrest with
            | leaves _ => rfl
            | pass hin => rw [hout] at hin; cases hin
          rw [hnil, blocksFrom_end hend]
          rfl

end

def answer (content : Bytes) (block : ℕ × ℕ) : ℕ × Bytes :=
  (block.1, slice content block.1 (block.1 + block.2))

def stored (content : Bytes) (arrivals : List (ℕ × ℕ)) : List (ℕ × Bytes) :=
  arrivals.foldl (fun acc block => setBlock acc block.1 (answer content block).2) []

section
variable {content : Bytes} {arrivals : List (ℕ × ℕ)}

theorem setBlock_keys {acc : List (ℕ × Bytes)} {begin : ℕ} {block : Bytes}
    (h : (acc.map Prod.fst).Nodup) : ((setBlock acc begin block).map Prod.fst).Nodup := by
  unfold setBlock
  split
  · have hsame : (acc.map fun entry => if entry.1 = begin then (begin, block) else entry).map Prod.fst =
        acc.map Prod.fst := by
      rw [List.map_map]
      apply List.map_congr_left
      intro entry _
      by_cases hentry : entry.1 = begin
      · simp [hentry]
      · simp [hentry]
    rw [hsame]
    exact h
  · next hnew =>
    rw [List.map_append, List.map_singleton, List.nodup_append]
    refine ⟨h, List.nodup_singleton _, ?_⟩
    intro key hkey other hother
    rw [List.mem_singleton.mp hother]
    rintro rfl
    obtain ⟨entry, hentry, rfl⟩ := List.mem_map.mp hkey
    exact hnew (List.any_eq_true.mpr ⟨entry, hentry, beq_self_eq_true _⟩)

theorem mem_setBlock {acc : List (ℕ × Bytes)} {begin : ℕ} {block : Bytes} {e : ℕ × Bytes} :
    e ∈ setBlock acc begin block ↔ e = (begin, block) ∨ e ∈ acc ∧ e.1 ≠ begin := by
  unfold setBlock
  split
  · next hold =>
    obtain ⟨entry, hentry, hkey⟩ := List.any_eq_true.mp hold
    rw [List.mem_map]
    constructor
    · rintro ⟨e₀, he₀, rfl⟩
      by_cases hsame : e₀.1 = begin
      · exact Or.inl (if_pos hsame)
      · rw [if_neg hsame]
        exact Or.inr ⟨he₀, hsame⟩
    · rintro (rfl | ⟨he, hne⟩)
      · exact ⟨entry, hentry, if_pos (beq_iff_eq.mp hkey)⟩
      · exact ⟨e, he, if_neg hne⟩
  · next hnew =>
    rw [List.mem_append, List.mem_singleton]
    constructor
    · rintro (he | rfl)
      · refine Or.inr ⟨he, fun hkey => hnew ?_⟩
        exact List.any_eq_true.mpr ⟨e, he, beq_iff_eq.mpr hkey⟩
      · exact Or.inl rfl
    · rintro (rfl | ⟨he, -⟩)
      · exact Or.inr rfl
      · exact Or.inl he

theorem block_unique {x y : ℕ × ℕ} (hx : x ∈ blocks spec) (hy : y ∈ blocks spec) (h : x.1 = y.1) :
    x = y := by
  have hnodup : ((blocks spec).map Prod.fst).Nodup :=
    List.pairwise_map.mpr ((blocks_tiling spec).ascending.imp fun hlt => Nat.ne_of_lt hlt)
  exact List.inj_on_of_nodup_map hnodup hx hy h

/-- `piece_blocks` holds each block that has arrived, once. -/
theorem stored_spec (content : Bytes) (harrivals : ∀ block ∈ arrivals, block ∈ blocks spec) :
    ((stored content arrivals).map Prod.fst).Nodup ∧
      ∀ e, e ∈ stored content arrivals ↔ ∃ block ∈ arrivals, e = answer content block := by
  have hfold : ∀ (seen : List (ℕ × ℕ)) (acc : List (ℕ × Bytes)), (∀ block ∈ seen, block ∈ blocks spec) →
      (acc.map Prod.fst).Nodup → (∀ e, e ∈ acc ↔ ∃ block ∈ seen, e = answer content block) →
      let last := arrivals.foldl (fun acc block => setBlock acc block.1 (answer content block).2) acc
      (last.map Prod.fst).Nodup ∧
        ∀ e, e ∈ last ↔ ∃ block, (block ∈ seen ∨ block ∈ arrivals) ∧ e = answer content block := by
    induction arrivals with
    | nil =>
      intro seen acc _ hnodup hmem
      exact ⟨hnodup, fun e => by simpa using hmem e⟩
    | cons first rest ih =>
      intro seen acc hseen hnodup hmem
      have hfirst := harrivals first List.mem_cons_self
      have hnext := ih (fun block hb => harrivals block (List.mem_cons_of_mem _ hb)) (first :: seen)
        (setBlock acc first.1 (answer content first).2)
        (fun block hb => by
          rcases List.mem_cons.mp hb with rfl | hb
          · exact hfirst
          · exact hseen block hb)
        (setBlock_keys hnodup) (fun e => by
          rw [mem_setBlock, hmem]
          constructor
          · rintro (rfl | ⟨⟨block, hblock, rfl⟩, -⟩)
            · exact ⟨first, List.mem_cons_self, rfl⟩
            · exact ⟨block, List.mem_cons_of_mem _ hblock, rfl⟩
          · rintro ⟨block, hblock, rfl⟩
            rcases List.mem_cons.mp hblock with rfl | hblock
            · exact Or.inl rfl
            · by_cases hsame : block.1 = first.1
              · rw [block_unique (hseen block hblock) hfirst hsame]
                exact Or.inl rfl
              · exact Or.inr ⟨⟨block, hblock, rfl⟩, hsame⟩)
      refine ⟨hnext.1, fun e => (hnext.2 e).trans ?_⟩
      constructor
      · rintro ⟨block, hblock, he⟩
        refine ⟨block, ?_, he⟩
        rw [List.mem_cons] at hblock ⊢
        tauto
      · rintro ⟨block, hblock, he⟩
        refine ⟨block, ?_, he⟩
        rw [List.mem_cons] at hblock ⊢
        tauto
  obtain ⟨hnodup, hmem⟩ := hfold [] [] (fun _ hb => by cases hb) List.nodup_nil (fun e => by simp)
  exact ⟨hnodup, fun e => (hmem e).trans (by simp)⟩

theorem stored_perm (content : Bytes) (harrivals : ∀ block ∈ arrivals, block ∈ blocks spec) :
    (stored content arrivals).Perm
      (((blocks spec).filter fun block => block ∈ arrivals).map (answer content)) := by
  obtain ⟨hnodup, hmem⟩ := stored_spec content harrivals
  have hkeys : (((blocks spec).filter fun block => block ∈ arrivals).map (answer content)).Nodup := by
    refine List.Nodup.of_map Prod.fst ?_
    rw [List.map_map]
    refine List.pairwise_map.mpr ?_
    exact ((blocks_tiling spec).ascending.filter _).imp fun hlt => Nat.ne_of_lt hlt
  refine (List.perm_ext_iff_of_nodup (List.Nodup.of_map Prod.fst hnodup) hkeys).mpr fun e => ?_
  rw [hmem, List.mem_map]
  constructor
  · rintro ⟨block, hblock, rfl⟩
    exact ⟨block, List.mem_filter.mpr ⟨harrivals block hblock, decide_eq_true hblock⟩, rfl⟩
  · rintro ⟨block, hblock, rfl⟩
    exact ⟨block, of_decide_eq_true (List.mem_filter.mp hblock).2, rfl⟩

theorem answer_length (hcontent : (content.length : ℤ) = spec.length) {block : ℕ × ℕ}
    (h : block ∈ blocks spec) : (answer content block).2.length = block.2 := by
  have hle := ((blocks_tiling spec).inside h).2.1
  rw [answer, length_slice]
  omega

/-- The byte count is reached with the last block. -/
theorem pieceComplete_iff (hcontent : (content.length : ℤ) = spec.length)
    (harrivals : ∀ block ∈ arrivals, block ∈ blocks spec) :
    pieceComplete (stored content arrivals) spec.length = true ↔
      ∀ block ∈ blocks spec, block ∈ arrivals := by
  have hsum : ((stored content arrivals).map fun entry => entry.2.length).sum =
      (((blocks spec).filter fun block => block ∈ arrivals).map Prod.snd).sum := by
    rw [((stored_perm content harrivals).map _).sum_eq, List.map_map]
    refine congrArg _ (List.map_congr_left fun block hblock => ?_)
    exact answer_length hcontent (List.mem_filter.mp hblock).1
  have hfull := (blocks_tiling spec).full_iff (p := fun block => decide (block ∈ arrivals))
  rw [Nat.zero_add] at hfull
  rw [pieceComplete, decide_eq_true_iff, hsum]
  constructor
  · intro h block hblock
    exact of_decide_eq_true (hfull.mp (by omega) block hblock)
  · intro h
    have hle := hfull.mpr fun block hblock => decide_eq_true (h block hblock)
    omega

/-- Written one after the other, the answers fill the array. -/
theorem foldl_flatWrite {start stop : ℕ} {bs : List (ℕ × ℕ)} (h : Tiling start bs stop)
    (hstop : stop ≤ content.length) :
    (bs.map (answer content)).foldl (fun result entry => flatWrite result entry.1 entry.2)
      (content.take start ++ List.replicate (stop - start) 0) = content.take stop := by
  induction bs generalizing start with
  | nil =>
    rw [show start = stop from h, Nat.sub_self]
    exact List.append_nil _
  | cons block rest ih =>
    obtain ⟨hblock, hpos, hrest⟩ := h
    have hle := hrest.le
    have htake : (content.take start).length = start := by
      rw [List.length_take]
      omega
    have hlength : (answer content block).2.length = block.2 := by
      rw [answer, length_slice]
      omega
    have hwrite : flatWrite (content.take start ++ List.replicate (stop - start) 0) block.1
        (answer content block).2 =
          content.take (start + block.2) ++ List.replicate (stop - (start + block.2)) 0 := by
      rw [flatWrite_append_right (by omega), htake, hblock, Nat.sub_self, flatWrite, hlength,
        List.take_zero, List.nil_append, Nat.zero_add, List.drop_replicate, ← List.append_assoc,
        answer, hblock, slice_add, ← List.take_add, Nat.sub_sub]
    rw [List.map_cons, List.foldl_cons, show (answer content block).1 = block.1 from rfl, hwrite]
    exact ih hrest

/-- A piece of which every block has arrived is put together from them. -/
theorem assemblePiece_stored (hcontent : (content.length : ℤ) = spec.length)
    (harrivals : ∀ block ∈ arrivals, block ∈ blocks spec)
    (hall : ∀ block ∈ blocks spec, block ∈ arrivals) :
    assemblePiece (stored content arrivals) spec.length = some content := by
  have htiling := blocks_tiling spec
  have hperm : (stored content arrivals).Perm ((blocks spec).map (answer content)) := by
    have hsome := stored_perm content harrivals
    rwa [List.filter_eq_self.mpr fun block hblock => decide_eq_true (hall block hblock)] at hsome
  have hsorted : (stored content arrivals).insertionSort (fun a b => a.1 ≤ b.1) =
      (blocks spec).map (answer content) := by
    have htotal : Std.Total fun a b : ℕ × Bytes => a.1 ≤ b.1 := ⟨fun a b => Nat.le_total _ _⟩
    have htrans : IsTrans (ℕ × Bytes) fun a b => a.1 ≤ b.1 :=
      ⟨fun _ _ _ hab hbc => Nat.le_trans hab hbc⟩
    refine List.Perm.eq_of_pairwise (fun a b ha hb hab hba => ?_)
      (List.pairwise_insertionSort _ _) ?_ ((List.perm_insertionSort _ _).trans hperm)
    · rw [List.mem_insertionSort, hperm.mem_iff] at ha
      obtain ⟨x, hx, rfl⟩ := List.mem_map.mp ha
      obtain ⟨y, hy, rfl⟩ := List.mem_map.mp hb
      rw [block_unique hx hy (Nat.le_antisymm hab hba)]
    · exact List.pairwise_map.mpr (htiling.ascending.imp fun hlt => Nat.le_of_lt hlt)
  have hlength : spec.length.toNat = content.length := by omega
  rw [assemblePiece, if_neg (by omega), hsorted]
  have hfold := foldl_flatWrite htiling (show spec.length.toNat ≤ content.length by omega)
  rw [List.take_zero, List.nil_append, Nat.sub_zero, hlength, List.take_length] at hfold
  rw [hlength, hfold]

end

end BlockTransfer
