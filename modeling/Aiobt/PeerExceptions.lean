import Aiobt.PeerWrapper

/-! # What `run_peer` raises

A session that is in order gives rise to no exceptions of its own. What is left are messages that
cannot be parsed, blocks that are too long for a message, and what an awaited call raises. -/
namespace PeerExceptions

open ByteStrings PieceTracker PieceEngine PeerMessages WireFraming PieceSearch EngineTurns
open PeerWrapper

variable {sha1 : Bytes → Bytes} {kind : StorageKind} {hint : ℕ} {s s' : Session} {t t' t₁ : Task}
  {p : Await} {msg : Message} {specs : List PieceSpec}

theorem packs_of_fits (h : Fits msg) : packs msg = true := by
  rw [packs, encodeMessage_fits h]

/-- The fields and the length of a message fit into four bytes each. -/
theorem packs_of_fields (hfields : ∀ n ∈ fields msg, n < 2 ^ 32)
    (hpayload : (payload msg).length + 13 < 2 ^ 32) : packs msg = true := by
  by_cases hm : msg = .keepAlive
  · subst hm
    rfl
  · refine packs_of_fits ⟨hfields, ?_⟩
    have hcount : (fields msg).length ≤ 3 := by cases msg <;> simp [fields]
    rw [length_body hm]
    omega

theorem packs_piece {index begin : ℕ} (block : Bytes) (hindex : index < 2 ^ 32)
    (hbegin : begin < 2 ^ 32) :
    packs (.piece index begin block) = decide (9 + block.length < 2 ^ 32) := by
  by_cases hlength : 9 + block.length < 2 ^ 32
  · rw [decide_eq_true hlength]
    refine packs_of_fits ⟨?_, ?_⟩
    · simp only [fields, List.forall_mem_cons]
      exact ⟨hindex, hbegin, fun n hn => absurd hn List.not_mem_nil⟩
    · rw [length_body (by simp)]
      exact hlength
  · rw [decide_eq_false hlength]
    have hrefused : pack (9 + block.length) 7 [index, begin] = .error .structError := by
      refine if_neg fun hall => hlength (hall _ List.mem_cons_self)
    rw [packs, encodeMessage, hrefused]
    rfl

/-- A Request and a Cancel take their offset and length from a piece that is not too long. -/
theorem packs_block {i offset : ℕ} {spec : PieceSpec} (hindex : i < 2 ^ 32)
    (hoffset : (offset : ℤ) < spec.length) (hlength : spec.length ≤ 2 ^ 32) :
    packs (.request i offset (blockLen spec offset)) = true ∧
      packs (.cancel i offset (blockLen spec offset)) = true := by
  have hblock : blockLen spec offset < 2 ^ 32 := by
    unfold blockLen blockSize
    omega
  refine ⟨packs_of_fields ?_ (by norm_num [payload]), packs_of_fields ?_ (by norm_num [payload])⟩
  · intro n hn
    simp only [fields, List.mem_cons, List.not_mem_nil, or_false] at hn
    omega
  · intro n hn
    simp only [fields, List.mem_cons, List.not_mem_nil, or_false] at hn
    omega

theorem not_packs_request {i offset length : ℕ} (h : 2 ^ 32 ≤ i ∨ 2 ^ 32 ≤ offset) :
    packs (.request i offset length) = false := by
  have hrefused : pack 13 6 [i, offset, length] = .error .structError := by
    refine if_neg fun hall => ?_
    have hi := hall i (by simp)
    have hoffset := hall offset (by simp)
    omega
  rw [packs, encodeMessage, hrefused]

/-- The session keeps to the pieces of its torrent, whose numbers fit into messages. -/
structure Sound (s : Session) : Prop where
  specs : s.tracker.specs.length = s.tracker.pieceCount.toNat
  count : 0 ≤ s.tracker.pieceCount
  few : s.tracker.pieceCount < 2 ^ 32
  spec : ∀ (i : ℕ) spec, s.tracker.specs[i]? = some spec →
    spec.index = i ∧ 0 ≤ spec.length ∧ spec.length ≤ 2 ^ 32
  inside : ∀ i ∈ s.tracker.got, i < s.tracker.pieceCount.toNat
  endgame : ∀ i ∈ s.endgame.pieces, i < s.tracker.pieceCount.toNat

namespace Sound

/-- The tracker of a torrent starts in order, and so does a session that starts with it. -/
theorem of_init {pieceLength totalLength : ℤ} {raw : Bytes} (h1 : 1 ≤ pieceLength)
    (h32 : pieceLength ≤ 2 ^ 32) (h0 : 0 ≤ totalLength)
    (h : init pieceLength totalLength raw = some s.tracker) (hfew : s.tracker.pieceCount < 2 ^ 32)
    (hendgame : s.endgame = .new) : Sound s := by
  obtain ⟨hcount, -, hlast⟩ := pieceCount_bounds h1 h0 h
  refine ⟨specs_length h, hcount, hfew, fun i spec hspec => ?_, fun i hi => ?_, fun i hi => ?_⟩
  · rw [init_specs h1 h0 h, List.getElem?_map, Option.map_eq_some_iff] at hspec
    obtain ⟨j, hj, rfl⟩ := hspec
    obtain ⟨hlt, hj⟩ := List.getElem?_eq_some_iff.mp hj
    rw [List.getElem_range] at hj
    rw [List.length_range] at hlt
    subst hj
    have hle : (i : ℤ) ≤ s.tracker.pieceCount - 1 := by omega
    have hbefore := mul_le_mul_of_nonneg_right hle (show 0 ≤ pieceLength by omega)
    refine ⟨rfl, ?_, ?_⟩
    · show 0 ≤ min pieceLength (totalLength - i * pieceLength)
      omega
    · show min pieceLength (totalLength - i * pieceLength) ≤ 2 ^ 32
      omega
  · rw [(specs_eq_of_init h).2.2.2.1] at hi
    exact absurd hi (Finset.notMem_empty i)
  · rw [hendgame] at hi
    exact absurd hi (Finset.notMem_empty i)

theorem index (h : Sound s) {i : ℕ} {spec : PieceSpec} (hspec : s.tracker.specs[i]? = some spec) :
    i < 2 ^ 32 := by
  obtain ⟨hi, -⟩ := List.getElem?_eq_some_iff.mp hspec
  have hfew := h.few
  rw [h.specs] at hi
  omega

theorem spec_of_lt (h : Sound s) {i : ℕ} (hi : i < s.tracker.pieceCount.toNat) :
    ∃ spec, s.tracker.specs[i]? = some spec := by
  rw [← h.specs] at hi
  exact ⟨_, List.getElem?_eq_getElem hi⟩

theorem of_undisturbed (h : Sound s) (hs : Undisturbed s s')
    (hpieces : ∀ i ∈ s'.endgame.pieces, i ∈ s.endgame.pieces ∨ i < s.tracker.pieceCount.toNat) :
    Sound s' where
  specs := by rw [hs.marks.specs, hs.marks.pieceCount]; exact h.specs
  count := by rw [hs.marks.pieceCount]; exact h.count
  few := by rw [hs.marks.pieceCount]; exact h.few
  spec := by rw [hs.marks.specs]; exact h.spec
  inside := by rw [hs.marks.got, hs.marks.pieceCount]; exact h.inside
  endgame i hi := by
    rw [hs.marks.pieceCount]
    rcases hpieces i hi with hi | hi
    · exact h.endgame i hi
    · exact hi

theorem markFailed (h : Sound s) (index : ℕ) :
    Sound { s with tracker := s.tracker.markFailed index } :=
  h.of_undisturbed (.markFailed s index) fun _ hi => Or.inl hi

theorem cleanup (h : Sound s) (t : Task) : Sound (cleanup s t).1 := by
  refine h.of_undisturbed (cleanup_undisturbed s t) fun i hi => ?_
  simp only [PieceEngine.cleanup] at hi
  split at hi
  · exact Or.inl hi
  · exact Or.inl hi

theorem packs_request (h : Sound s) {i offset : ℕ} {spec : PieceSpec}
    (hspec : s.tracker.specs[i]? = some spec) (hoffset : (offset : ℤ) < spec.length) :
    packs (.request spec.index.toNat offset (blockLen spec offset)) = true ∧
      packs (.cancel i offset (blockLen spec offset)) = true := by
  obtain ⟨hindex, -, hlength⟩ := h.spec i spec hspec
  have hi := h.index hspec
  rw [show spec.index.toNat = i by omega]
  exact packs_block hi hoffset hlength

theorem bitfield (h : Sound s) : ∃ data, buildBitfield s.tracker = some data ∧
    packs (.bitfield data) = true := by
  have hcount := h.count
  have hfew := h.few
  have hdiv : (s.tracker.pieceCount + 7).fdiv 8 = (s.tracker.pieceCount + 7) / 8 :=
    Int.fdiv_eq_ediv_of_nonneg _ (by omega)
  have hall : ¬ ((s.tracker.pieceCount + 7).fdiv 8 < 0 ∨ 2 ^ 63 ≤ (s.tracker.pieceCount + 7).fdiv 8 ∨
      ∃ i ∈ s.tracker.got, (s.tracker.pieceCount + 7).fdiv 8 ≤ (i / 8 : ℕ)) := by
    rw [hdiv]
    rintro (hneg | hlarge | ⟨i, hi, hle⟩)
    · omega
    · omega
    · have := h.inside i hi
      omega
  refine ⟨_, if_neg hall, packs_of_fields (fun n hn => absurd hn List.not_mem_nil) ?_⟩
  rw [payload, List.length_map, List.length_range, hdiv]
  omega

end Sound

def PointOk (specs : List PieceSpec) : Await → Prop
  | .sendRequest spec _ => ∃ i : ℕ, specs[i]? = some spec
  | .read index begin _ _ _ => index < 2 ^ 32 ∧ begin < 2 ^ 32
  | .sendCancel index spec _ offset left =>
    specs[index]? = some spec ∧ (offset : ℤ) < spec.length ∧ left ≠ ∅
  | .ended => False
  | _ => True

def Sends (t t' : Task) : Prop :=
  ∃ entries, t'.log = t.log ++ entries ∧ ∀ msg, Entry.sent msg ∈ entries → packs msg = true

structure Smooth (specs : List PieceSpec) (t t' : Task) : Prop where
  sends : Sends t t'
  stays : t'.point ≠ .disconnect
  point : PointOk specs t'.point

theorem Sends.of_log (h : t'.log = t.log) : Sends t t' :=
  ⟨[], by rw [h, List.append_nil], fun _ hm => absurd hm List.not_mem_nil⟩

theorem Sends.trans (h : Sends t t₁) (k : Sends t₁ t') : Sends t t' := by
  obtain ⟨before, hbefore, hpacks⟩ := h
  obtain ⟨after, hafter, hpacks'⟩ := k
  refine ⟨before ++ after, by rw [hafter, hbefore, List.append_assoc], fun msg hm => ?_⟩
  rcases List.mem_append.mp hm with hm | hm
  · exact hpacks msg hm
  · exact hpacks' msg hm

theorem Sends.send (hpacks : packs msg = true) (point : Await) : Sends t (t.send msg point) :=
  ⟨[.sent msg], rfl, fun m hm => by
    obtain rfl : m = msg := by simpa using hm
    exact hpacks⟩

theorem Smooth.of_sends (k : Smooth specs t₁ t') (h : Sends t t₁) : Smooth specs t t' :=
  ⟨h.trans k.sends, k.stays, k.point⟩

theorem Smooth.of_log (k : Smooth specs t₁ t') (h : t₁.log = t.log) : Smooth specs t t' :=
  k.of_sends (.of_log h)

theorem Smooth.raisedBy (h : Smooth specs t t') (failure : Exn) : raisedBy t t' failure = none := by
  obtain ⟨entries, hlog, hpacks⟩ := h.sends
  have hsent : ((sending t t').any fun msg => !packs msg) = false := by
    unfold sending
    split
    · rfl
    · next hless =>
      have hne : entries ≠ [] := by
        rintro rfl
        apply hless
        rw [hlog, List.append_nil]
      rw [hlog, List.getLast?_append_of_ne_nil _ hne]
      split
      · next msg hlast =>
        have hp := hpacks msg (List.mem_of_getLast? hlast)
        simp [hp]
      · rfl
  rw [PeerWrapper.raisedBy, hsent]
  simp [h.stays]

theorem Smooth.settle (failure : Exn) {next : Session × Task} (h : Smooth specs t next.2) :
    settle t failure next = (next.1, next.2, none) := by
  rw [PeerWrapper.settle, h.raisedBy]

theorem requestFrom_smooth (hs : Sound s) {i : ℕ} {spec : PieceSpec}
    (hspec : s.tracker.specs[i]? = some spec) (t : Task) (offset : ℕ) :
    Smooth s.tracker.specs t (requestFrom t spec offset) := by
  unfold requestFrom
  split
  · next hmore =>
    exact ⟨.send (hs.packs_request hspec hmore).1 _, by simp [Task.send], ⟨i, hspec⟩⟩
  · exact ⟨.of_log rfl, by simp [Task.goto], trivial⟩

theorem startPiece_ok (hs : Sound s) {started : Started} {tr : Tracker} {eg : EndgameState}
    (h : startPiece hint s.tracker s.endgame t = (tr, eg, started)) : started ≠ .indexError := by
  have hmarks := (search_spec t.peerPieces s.tracker).marks
  rintro rfl
  unfold startPiece at h
  cases hsearch : search t.peerPieces s.tracker with
  | mk tr₁ found =>
    rw [hsearch] at h hmarks
    have hsame : tr₁.specs = s.tracker.specs := hmarks.specs
    cases found with
    | some idx =>
      obtain ⟨-, hlt, -⟩ := search_some (show (search t.peerPieces s.tracker).2 = some idx by rw [hsearch])
      obtain ⟨spec, hspec⟩ := hs.spec_of_lt hlt
      simp only [Tracker.markPending_specs, hsame, hspec] at h
      cases h
    | none =>
      simp only at h
      split at h
      · obtain ⟨-, hrest⟩ := Prod.mk.inj h
        unfold startEndgame at hrest
        simp only at hrest
        split at hrest
        · split at hrest
          · cases hrest
          · next idx hidx =>
            have hlt : idx < s.tracker.pieceCount.toNat := by
              rcases activate_pieces (Finset.mem_filter.mp (firstOf_some hidx)).1 with hi | hi
              · exact hs.endgame idx hi
              · rw [hmarks.pieceCount] at hi
                exact hi
            obtain ⟨spec, hspec⟩ := hs.spec_of_lt hlt
            simp only [hsame, hspec] at hrest
            cases hrest
        · cases hrest
      · cases h

theorem nextPiece_smooth (hs : Sound s) (hint : ℕ) (t : Task) :
    Smooth s.tracker.specs t (nextPiece hint s t).2 := by
  obtain ⟨tr, eg, started, hstart, hcases⟩ := nextPiece_cases
    (show nextPiece hint s t = ((nextPiece hint s t).1, (nextPiece hint s t).2) from rfl)
  rcases hcases with ⟨-, -, hnext⟩ | ⟨idx, spec, rfl, -, hnext⟩ | ⟨hno, -, -⟩
  · rw [hnext]
    exact ⟨.of_log rfl, by simp [Task.goto], trivial⟩
  · rw [hnext]
    obtain ⟨-, -, hspec⟩ := startPiece_piece hstart
    exact (requestFrom_smooth hs hspec (t.takePiece idx spec) 0).of_log rfl
  · exact absurd hno (startPiece_ok hs hstart)

theorem finishPiece_smooth (hs : Sound s) (hint : ℕ) (t : Task) :
    Smooth s.tracker.specs t (finishPiece hint s t).2 := by
  unfold finishPiece
  split
  · exact ⟨.of_log rfl, by simp [Task.goto], trivial⟩
  · split
    · exact ⟨.of_log rfl, by simp [Task.goto], trivial⟩
    · exact (nextPiece_smooth hs hint t.dropPiece).of_log rfl

theorem announced_smooth (s : Session) (t : Task) (interest : Bool) :
    Smooth specs t (announced s t interest).2 := by
  unfold announced
  split
  · exact ⟨.send rfl _, by simp [Task.send], trivial⟩
  · exact ⟨.of_log rfl, by simp [Task.goto], trivial⟩

theorem onRequest_smooth (hs : Sound s) (t : Task) {index begin : ℕ} (length : ℕ)
    (hindex : index < 2 ^ 32) (hbegin : begin < 2 ^ 32) :
    Smooth s.tracker.specs t (onRequest s t index begin length).2 := by
  unfold onRequest
  split
  · exact ⟨.of_log rfl, by simp [Task.goto], trivial⟩
  · split
    · next hgot =>
      obtain ⟨spec, hspec⟩ := hs.spec_of_lt (hs.inside index hgot)
      simp only [hspec]
      refine ⟨⟨_, rfl, fun msg hm => ?_⟩, by simp, hindex, hbegin⟩
      simp at hm
    · exact ⟨.of_log rfl, by simp [Task.goto], trivial⟩

theorem onBlock_smooth (hs : Sound s) (ht : TaskOk sha1 s.tracker.specs t) (hint : ℕ) {index : ℕ}
    (begin : ℕ) (block : Bytes) (hcur : t.currentPiece = some index) :
    Smooth s.tracker.specs t (onBlock sha1 hint s t index begin block).2 := by
  obtain ⟨spec, hspec, hat⟩ := ht.current index hcur
  obtain ⟨-, hlength, -⟩ := hs.spec index spec hat
  have hkeep : ({ t with pieceBlocks := setBlock t.pieceBlocks begin block }.countDown
      block.length).pieceSpec = some spec := hspec
  simp only [onBlock, hkeep]
  split
  · simp only [assemblePiece, if_neg (not_lt.mpr hlength)]
    split
    · exact ⟨.of_log rfl, by simp [Task.goto], trivial⟩
    · exact (finishPiece_smooth (hs.markFailed index) hint _).of_log rfl
  · exact ⟨.of_log rfl, by simp [Task.goto], trivial⟩

theorem onMessage_smooth (hs : Sound s) (ht : TaskOk sha1 s.tracker.specs t) (hint : ℕ)
    (hfields : ∀ n ∈ fields msg, n < 2 ^ 32) :
    Smooth s.tracker.specs t (onMessage sha1 hint s t msg).2 := by
  have hlog : ∀ choking, Sends t { t with log := t.log ++ [.received msg choking] } := by
    intro choking
    refine ⟨_, rfl, fun m hm => ?_⟩
    simp at hm
  have hstay : ∀ t₁ : Task, t₁.log = t.log ++ [.received msg t.amChoking] →
      Smooth s.tracker.specs t (t₁.goto .receive) := by
    intro t₁ ht₁
    refine ⟨⟨_, ht₁, fun m hm => ?_⟩, by simp [Task.goto], trivial⟩
    simp at hm
  cases msg with
  | keepAlive => exact hstay _ rfl
  | bitfield data =>
    exact (announced_smooth _ _ true).of_sends (hlog _)
  | havePiece index =>
    exact (announced_smooth _ _ (!t.amInterested)).of_sends (hlog _)
  | interested =>
    simp only [onMessage]
    split
    · exact hstay _ rfl
    · refine ⟨(hlog _).trans (.send rfl _), by simp [Task.send], trivial⟩
  | notInterested => exact hstay _ rfl
  | choke =>
    simp only [onMessage]
    split
    · exact hstay _ rfl
    · exact hstay _ rfl
  | unchoke =>
    simp only [onMessage]
    split
    · exact (nextPiece_smooth hs hint _).of_sends (hlog _)
    · exact hstay _ rfl
  | request index begin length =>
    exact (onRequest_smooth hs _ length (hfields _ (by simp [fields]))
      (hfields _ (by simp [fields]))).of_sends (hlog _)
  | piece index begin block =>
    simp only [onMessage]
    split
    · next hcur =>
      have htask : TaskOk sha1 s.tracker.specs
          { t with log := t.log ++ [.received (.piece index begin block) t.amChoking] } :=
        ht.same ⟨rfl, rfl, rfl, rfl, rfl, Or.inl rfl⟩ rfl
      exact (onBlock_smooth hs htask hint begin block hcur).of_sends (hlog _)
    · exact hstay _ rfl
  | cancel index begin length => exact hstay _ rfl

theorem cancelFrom_smooth (hs : Sound s) (hint : ℕ) (t : Task) {index : ℕ} {spec : PieceSpec}
    (hspec : s.tracker.specs[index]? = some spec) (addrs : Finset Address) (offset : ℕ) :
    Smooth s.tracker.specs t (cancelFrom hint s t index spec addrs offset).2 := by
  unfold cancelFrom
  split
  · next hmore => exact ⟨.of_log rfl, by simp [Task.goto], hspec, hmore.2, hmore.1⟩
  · exact finishPiece_smooth hs hint t

theorem cancelStep_smooth (hs : Sound s) (hp : PointOk s.tracker.specs t.point) {addr : Address}
    {connected : Bool} (h : cancelStep addr connected hint s t = some (s', t')) :
    Smooth s.tracker.specs t t' := by
  unfold cancelStep at h
  split at h
  · next index spec addrs offset left hpoint =>
    rw [hpoint] at hp
    obtain ⟨hspec, hmore, -⟩ := hp
    split at h
    · simp only at h
      split at h
      · next hleft =>
        obtain ⟨-, rfl⟩ := Prod.mk.inj (Option.some.inj h)
        exact ⟨.of_log rfl, by simp [Task.goto], hspec, hmore, hleft⟩
      · have ht : t' = _ := (congrArg Prod.snd (Option.some.inj h)).symm
        have hsent : Sound (if connected then
            { s with cancels := s.cancels ++ [(addr, .cancel index offset (blockLen spec offset))] }
            else s) := by
          split
          · exact ⟨hs.specs, hs.count, hs.few, hs.spec, hs.inside, hs.endgame⟩
          · exact hs
        have hsame : (if connected then
            { s with cancels := s.cancels ++ [(addr, .cancel index offset (blockLen spec offset))] }
            else s).tracker = s.tracker := by
          split
          · rfl
          · rfl
        have hsmooth := cancelFrom_smooth hsent hint t (by rw [hsame]; exact hspec) addrs
          (offset + blockLen spec offset)
        rw [hsame] at hsmooth
        rw [ht]
        exact hsmooth
    · cases h
  · cases h

/-- A read that has returned is sent, or was short; all else goes on. -/
theorem resume_smooth (hs : Sound s) (ht : TaskOk sha1 s.tracker.specs t)
    (hread : ∀ index begin length offset data, t.point ≠ .read index begin length offset data)
    (hdis : t.point ≠ .disconnect) (hok : PointOk s.tracker.specs t.point) (h : resume kind hint s t = some (s', t')) :
    Smooth s.tracker.specs t t' := by
  unfold resume at h
  split at h
  case h_4 spec offset hp =>
    obtain ⟨-, rfl⟩ := Prod.mk.inj (Option.some.inj h)
    rw [hp] at hok
    obtain ⟨i, hspec⟩ := hok
    exact requestFrom_smooth hs hspec t _
  case h_5 index begin length offset data hp => exact absurd hp (hread _ _ _ _ _)
  case h_8 index spec hp =>
    obtain ⟨-, rfl⟩ := Prod.mk.inj (Option.some.inj h)
    have hindex := hs.index (ht.written index spec (by rw [hp]; rfl)).2
    refine ⟨.send (packs_of_fields ?_ (by norm_num [payload])) _, by simp [Task.send], trivial⟩
    simpa [fields] using hindex
  case h_9 index spec hp =>
    have heq : t' = _ := (congrArg Prod.snd (Option.some.inj h)).symm
    have hspec := (ht.written index spec (by rw [hp]; rfl)).2
    rw [heq]
    unfold afterHave
    split
    · have hdone : Sound { s with endgame := (s.endgame.pieceDone index).1 } :=
        ⟨hs.specs, hs.count, hs.few, hs.spec, hs.inside,
          fun i hi => hs.endgame i (Finset.mem_of_mem_erase hi)⟩
      exact cancelFrom_smooth hdone hint t hspec _ 0
    · exact finishPiece_smooth hs hint t
  case h_10 =>
    obtain ⟨-, rfl⟩ := Prod.mk.inj (Option.some.inj h)
    exact ⟨.send rfl _, by simp [Task.send], trivial⟩
  case h_12 hp => exact absurd hp hdis
  case h_13 => cases h
  all_goals
    obtain ⟨-, rfl⟩ := Prod.mk.inj (Option.some.inj h)
    exact ⟨.of_log rfl, by simp [Task.goto], trivial⟩

/-- A complete message that is read can be parsed, a block that is served has a length that fits,
and what is awaited raises nothing else than what `run_peer` catches. -/
def contained (kind : StorageKind) (w : Wrapper) : PeerWrapper.Action → Bool
  | .receives _ =>
    match receiveMessage (some w.wire) with
    | .error (.message _) => false
    | _ => true
  | .returns _ =>
    match w.task.point with
    | .read _ _ length _ data =>
      decide (kind = .blob ∧ data.length ≠ length ∨ 9 + data.length < 2 ^ 32)
    | _ => true
  | .raises e => caughtByRunPeer e
  | _ => true

theorem receiveMessage_some (wire : Bytes) : receiveMessage (some wire) ≠ .error .notConnected := by
  intro h
  unfold receiveMessage at h
  simp only at h
  split at h
  · cases h
  · split at h
    · cases h
    · split at h
      · cases h
      · split at h
        · cases h
        · cases h

variable {a : PeerWrapper.Action} {w w' : Wrapper} {hub hub' : Hub} {wire : Bytes}
  {next : Session × Task × Option Exn}

/-- The read is over: the block is served, or refused by its length, or the storage was too short. -/
theorem resume_read (specs : List PieceSpec) {index begin length : ℕ} {offset : ℤ} {data : Bytes}
    (hp : t.point = .read index begin length offset data) (hindex : index < 2 ^ 32)
    (hbegin : begin < 2 ^ 32) (h : resume kind hint s t = some (s', t')) :
    (settle t (failureOf t) (s', t')).2.2 =
      (if kind = .blob ∧ data.length ≠ length then some .osError
      else if 9 + data.length < 2 ^ 32 then none else some .structError) ∧
      PointOk specs (settle t (failureOf t) (s', t')).2.1.point := by
  have hfailure : failureOf t = .osError := by rw [failureOf, hp]
  simp only [resume, hp] at h
  split at h
  · cases h
  · split at h
    · next hshort =>
      rw [← Option.some.inj h]
      have hraised : raisedBy t (cleanup s t).2 .osError = some .osError := by
        simp [raisedBy, sending, cleanup, Task.goto]
      rw [hfailure, if_pos hshort, settle, hraised]
      exact ⟨rfl, trivial⟩
    · next hlong =>
      rw [← Option.some.inj h]
      have hsending : sending t (t.send (.piece index begin data) (.sendPiece data.length)) =
          some (.piece index begin data) := by
        simp [sending, Task.send]
      have hraised : raisedBy t (t.send (.piece index begin data) (.sendPiece data.length)) .osError =
          if 9 + data.length < 2 ^ 32 then none else some .structError := by
        rw [raisedBy, hsending, Option.any_some, packs_piece data hindex hbegin]
        by_cases hfits : 9 + data.length < 2 ^ 32
        · rw [decide_eq_true hfits, if_pos hfits]
          rfl
        · rw [decide_eq_false hfits, if_neg hfits]
          rfl
      rw [hfailure, if_neg hlong, settle, hraised]
      by_cases hfits : 9 + data.length < 2 ^ 32
      · rw [if_pos hfits]
        exact ⟨rfl, trivial⟩
      · rw [if_neg hfits]
        exact ⟨rfl, trivial⟩

theorem runPeer_contained (hs : Sound s) (ht : TaskOk sha1 s.tracker.specs w.task)
    (hok : PointOk s.tracker.specs w.task.point)
    (h : runPeer sha1 kind a s w = some (next, wire)) :
    (next.2.2.bind escapes = none ↔ contained kind w a = true) ∧
      PointOk s.tracker.specs next.2.1.point := by
  have hsmooth : ∀ (failure : Exn) (next' : Session × Task),
      Smooth s.tracker.specs w.task next'.2 → next = settle w.task failure next' →
      contained kind w a = true →
      (next.2.2.bind escapes = none ↔ contained kind w a = true) ∧
        PointOk s.tracker.specs next.2.1.point := by
    rintro failure next' hgoes rfl hcontained
    rw [hgoes.settle failure]
    exact ⟨⟨fun _ => hcontained, fun _ => rfl⟩, hgoes.point⟩
  cases a with
  | starts =>
    obtain ⟨next', hstep, heq⟩ := Option.map_eq_some_iff.mp h
    obtain ⟨rfl, rfl⟩ := Prod.mk.inj heq
    refine hsmooth _ next' ?_ rfl rfl
    obtain ⟨data, hdata, hpacks⟩ := hs.bitfield
    simp only [taskStep] at hstep
    split at hstep
    · rw [hdata] at hstep
      obtain rfl := Option.some.inj hstep
      exact ⟨.send hpacks _, by simp [Task.send], trivial⟩
    · cases hstep
  | receives hint =>
    simp only [runPeer] at h
    split at h
    · have heq := Option.some.inj h
      unfold receive at heq
      cases hreceived : receiveMessage (some w.wire) with
      | ok received =>
        obtain ⟨hfields, -⟩ := receiveMessage_ok hreceived
        simp only [hreceived] at heq
        refine hsmooth .other _ (onMessage_smooth hs ht hint hfields) (Prod.mk.inj heq).1.symm ?_
        simp [contained, hreceived]
      | error err =>
        simp only [hreceived] at heq
        cases err with
        | notConnected => exact absurd hreceived (receiveMessage_some w.wire)
        | incompleteRead err =>
          obtain ⟨rfl, -⟩ := Prod.mk.inj heq
          simp [contained, hreceived, leave, escapes, caughtByRunPeer, cleanup, Task.goto, PointOk]
        | message err =>
          cases err with
          | structError =>
            obtain ⟨rfl, -⟩ := Prod.mk.inj heq
            simp [contained, hreceived, leave, escapes, caughtByRunPeer, cleanup, Task.goto, PointOk]
          | unknownMessageId id =>
            obtain ⟨rfl, -⟩ := Prod.mk.inj heq
            simp [contained, hreceived, leave, escapes, caughtByRunPeer, cleanup, Task.goto, PointOk]
    · cases h
  | returns hint =>
    simp only [runPeer] at h
    split at h
    · cases h
    · next hdis =>
      obtain ⟨next', hstep, heq⟩ := Option.map_eq_some_iff.mp h
      obtain ⟨rfl, rfl⟩ := Prod.mk.inj heq
      by_cases hread : ∃ index begin length offset data,
          w.task.point = .read index begin length offset data
      · obtain ⟨index, begin, length, offset, data, hp⟩ := hread
        rw [hp] at hok
        obtain ⟨hraised, hpoint⟩ :=
          resume_read s.tracker.specs hp hok.1 hok.2 hstep
        rw [hraised]
        refine ⟨?_, hpoint⟩
        simp only [contained, hp, decide_eq_true_eq]
        by_cases hshort : kind = .blob ∧ data.length ≠ length
        · simp [hshort, escapes, caughtByRunPeer]
        · rw [if_neg hshort]
          by_cases hfits : 9 + data.length < 2 ^ 32
          · rw [if_pos hfits]
            exact ⟨fun _ => Or.inr hfits, fun _ => rfl⟩
          · rw [if_neg hfits]
            exact ⟨fun hno => absurd hno (by simp [escapes, caughtByRunPeer]),
              fun hcond => (hcond.elim hshort hfits).elim⟩
      · have hno : ∀ index begin length offset data,
            w.task.point ≠ .read index begin length offset data :=
          fun index begin length offset data hp => hread ⟨index, begin, length, offset, data, hp⟩
        refine hsmooth _ next' (resume_smooth hs ht hno hdis hok hstep) rfl ?_
        simp only [contained]
  | raises e =>
    obtain ⟨r, hraises, heq⟩ := Option.map_eq_some_iff.mp h
    obtain ⟨rfl, rfl⟩ := Prod.mk.inj heq
    obtain ⟨-, -, -, rfl⟩ := awaitRaises_eq hraises
    refine ⟨?_, trivial⟩
    simp only [leave, contained, Option.bind_some, escapes]
    split
    · next hcaught => exact ⟨fun _ => hcaught, fun _ => rfl⟩
    · next hcaught => exact ⟨fun hno => absurd hno (by simp), fun hyes => absurd hyes hcaught⟩
  | fetches =>
    obtain ⟨next', hstep, heq⟩ := Option.map_eq_some_iff.mp h
    obtain ⟨rfl, rfl⟩ := Prod.mk.inj heq
    refine ⟨⟨fun _ => rfl, fun _ => rfl⟩, ?_⟩
    simp only [taskStep] at hstep
    split at hstep
    · next hp =>
      obtain ⟨byte, -, rfl⟩ := Option.map_eq_some_iff.mp hstep
      rw [hp] at hok
      exact hok
    · cases hstep
  | cancels addr connected hint =>
    obtain ⟨r, hcancels, heq⟩ := Option.map_eq_some_iff.mp h
    obtain ⟨rfl, rfl⟩ := Prod.mk.inj heq
    unfold broadcast at hcancels
    split at hcancels
    · next index spec addrs offset left hp =>
      have hsent : packs (.cancel index offset (blockLen spec offset)) = true := by
        rw [hp] at hok
        exact (hs.packs_request hok.1 hok.2.1).2
      rw [if_neg (by simp [hsent])] at hcancels
      obtain ⟨next', hstep, rfl⟩ := Option.map_eq_some_iff.mp hcancels
      exact hsmooth _ next' (cancelStep_smooth hs hok hstep) rfl rfl
    · cases hcancels
  | stores k =>
    obtain ⟨next', hstep, heq⟩ := Option.map_eq_some_iff.mp h
    obtain ⟨rfl, rfl⟩ := Prod.mk.inj heq
    refine ⟨⟨fun _ => rfl, fun _ => rfl⟩, ?_⟩
    simp only [taskStep] at hstep
    split at hstep
    · obtain ⟨byte, -, rfl⟩ := Option.map_eq_some_iff.mp hstep
      exact hok
    · cases hstep
  | rechokes amChoking =>
    obtain ⟨next', hstep, heq⟩ := Option.map_eq_some_iff.mp h
    obtain ⟨rfl, rfl⟩ := Prod.mk.inj heq
    refine ⟨⟨fun _ => rfl, fun _ => rfl⟩, ?_⟩
    simp only [taskStep] at hstep
    split at hstep
    · cases hstep
    · obtain rfl := Option.some.inj hstep
      exact hok
  | closes outcome => cases h
  | emits outcome => cases h
  | changes hub => cases h

theorem Sound.turn {b : PieceEngine.Action} (hs : Sound s) (ht : TaskOk sha1 s.tracker.specs t)
    (h : Turn sha1 kind b s t s' t') : Sound s' := by
  have hpieces := fun i (hi : i ∈ s'.endgame.pieces) => h.pieces hi
  rcases h.effect with hundisturbed | ⟨index, spec, assembled, hp, ⟨k, byte, -, rfl⟩ | rfl⟩
  · exact hs.of_undisturbed hundisturbed hpieces
  · exact ⟨hs.specs, hs.count, hs.few, hs.spec, hs.inside, hs.endgame⟩
  · refine ⟨hs.specs, hs.count, hs.few, hs.spec, fun i hi => ?_, hs.endgame⟩
    rcases Finset.mem_insert.mp hi with rfl | hi
    · obtain ⟨-, hspec, -⟩ := ht.writing i spec assembled (by rw [hp]; rfl)
      obtain ⟨hlt, -⟩ := List.getElem?_eq_some_iff.mp hspec
      rw [hs.specs] at hlt
      exact hlt
    · exact hs.inside i hi

/-- A step of `run_peer` is one of the engine, which the clean-up may follow. -/
theorem runPeer_step (h : runPeer sha1 kind a s w = some (next, wire)) :
    ∃ b s₁ t₁, taskStep sha1 kind b s w.task = some (s₁, t₁) ∧
      (w.task.point ≠ .disconnect ∨ ∃ amChoking, b = .rechokes amChoking) ∧
      (next.1 = s₁ ∧ next.2.1 = t₁ ∨
        next.1 = (cleanup s₁ t₁).1 ∧ next.2.1 = (cleanup s₁ t₁).2) := by
  have hsettle : ∀ b failure next', taskStep sha1 kind b s w.task = some next' →
      w.task.point ≠ .disconnect → next = settle w.task failure next' →
      ∃ b s₁ t₁, taskStep sha1 kind b s w.task = some (s₁, t₁) ∧
        (w.task.point ≠ .disconnect ∨ ∃ amChoking, b = .rechokes amChoking) ∧
        (next.1 = s₁ ∧ next.2.1 = t₁ ∨
          next.1 = (cleanup s₁ t₁).1 ∧ next.2.1 = (cleanup s₁ t₁).2) := by
    intro b failure next' hstep hdis hnext
    refine ⟨b, next'.1, next'.2, hstep, Or.inl hdis, ?_⟩
    rcases settle_cases w.task failure next' with heq | heq
    · rw [hnext, heq]
      exact Or.inl ⟨rfl, rfl⟩
    · rw [hnext, heq]
      exact Or.inr ⟨rfl, rfl⟩
  have hleave : ∀ e, w.task.point ≠ .starting → w.task.point ≠ .disconnect →
      w.task.point ≠ .ended → next = leave s w.task e →
      ∃ b s₁ t₁, taskStep sha1 kind b s w.task = some (s₁, t₁) ∧
        (w.task.point ≠ .disconnect ∨ ∃ amChoking, b = .rechokes amChoking) ∧
        (next.1 = s₁ ∧ next.2.1 = t₁ ∨
          next.1 = (cleanup s₁ t₁).1 ∧ next.2.1 = (cleanup s₁ t₁).2) := by
    rintro e hstart hdis hend rfl
    refine ⟨.raises, _, _, ?_, Or.inl hdis, Or.inl ⟨rfl, rfl⟩⟩
    simp only [taskStep]
    rfl
  cases a with
  | starts =>
    obtain ⟨next', hstep, heq⟩ := Option.map_eq_some_iff.mp h
    refine hsettle .starts .other next' hstep (fun hp => ?_) (Prod.mk.inj heq).1.symm
    simp [taskStep, hp] at hstep
  | receives hint =>
    simp only [runPeer] at h
    split at h
    · next hp =>
      have heq := Option.some.inj h
      unfold receive at heq
      have hstep : ∀ msg, taskStep sha1 kind (.receives msg hint) s w.task =
          some (onMessage sha1 hint s w.task msg) := by
        intro msg
        simp only [taskStep, hp]
      split at heq
      · exact hsettle _ .other _ (hstep _) (by simp [hp]) (Prod.mk.inj heq).1.symm
      all_goals exact hleave _ (by simp [hp]) (by simp [hp]) (by simp [hp]) (Prod.mk.inj heq).1.symm
    · cases h
  | returns hint =>
    simp only [runPeer] at h
    split at h
    · cases h
    · next hdis =>
      obtain ⟨next', hstep, heq⟩ := Option.map_eq_some_iff.mp h
      exact hsettle (.returns hint) _ next' hstep hdis (Prod.mk.inj heq).1.symm
  | raises e =>
    obtain ⟨r, hraises, heq⟩ := Option.map_eq_some_iff.mp h
    obtain ⟨rfl, rfl⟩ := Prod.mk.inj heq
    obtain ⟨hstart, hdis, hend, rfl⟩ := awaitRaises_eq hraises
    exact hleave e hstart hdis hend rfl
  | fetches =>
    obtain ⟨next', hstep, heq⟩ := Option.map_eq_some_iff.mp h
    obtain ⟨rfl, rfl⟩ := Prod.mk.inj heq
    refine ⟨.fetches, _, _, hstep, Or.inl fun hp => ?_, Or.inl ⟨rfl, rfl⟩⟩
    simp [taskStep, hp] at hstep
  | cancels addr connected hint =>
    obtain ⟨r, hcancels, heq⟩ := Option.map_eq_some_iff.mp h
    obtain ⟨rfl, rfl⟩ := Prod.mk.inj heq
    unfold broadcast at hcancels
    split at hcancels
    · next hp =>
      split at hcancels
      · exact hleave _ (by simp [hp]) (by simp [hp]) (by simp [hp]) (Option.some.inj hcancels).symm
      · obtain ⟨next', hstep, rfl⟩ := Option.map_eq_some_iff.mp hcancels
        exact hsettle (.cancels addr connected hint) _ next' hstep (by simp [hp]) rfl
    · cases hcancels
  | stores k =>
    obtain ⟨next', hstep, heq⟩ := Option.map_eq_some_iff.mp h
    obtain ⟨rfl, rfl⟩ := Prod.mk.inj heq
    refine ⟨.stores k, _, _, hstep, Or.inl fun hp => ?_, Or.inl ⟨rfl, rfl⟩⟩
    simp [taskStep, hp] at hstep
  | rechokes amChoking =>
    obtain ⟨next', hstep, heq⟩ := Option.map_eq_some_iff.mp h
    obtain ⟨rfl, rfl⟩ := Prod.mk.inj heq
    exact ⟨.rechokes amChoking, _, _, hstep, Or.inr ⟨amChoking, rfl⟩, Or.inl ⟨rfl, rfl⟩⟩
  | closes outcome => cases h
  | emits outcome => cases h
  | changes hub => cases h

/-- The session and the task stay in order, and the counters of the session are left alone. -/
structure Kept (sha1 : Bytes → Bytes) (s : Session) (t : Task) (s' : Session) (t' : Task) : Prop where
  sound : Sound s'
  specs : s'.tracker.specs = s.tracker.specs
  task : TaskOk sha1 s.tracker.specs t'
  addr : t'.addr = t.addr
  counts : counts s' = counts s

theorem runPeer_kept (hs : Sound s) (ht : TaskOk sha1 s.tracker.specs w.task)
    (h : runPeer sha1 kind a s w = some (next, wire)) : Kept sha1 s w.task next.1 next.2.1 := by
  obtain ⟨b, s₁, t₁, hstep, hdis, hnext⟩ := runPeer_step h
  have hturn := turn_of_step hstep
  obtain ⟨hspecs, htask⟩ := hturn.taskOk ht
  have hcounts : EngineTurns.counts s₁ = EngineTurns.counts s := by
    rcases hdis with hdis | ⟨amChoking, rfl⟩
    · exact taskStep_counts hdis hstep
    · simp only [taskStep] at hstep
      split at hstep
      · cases hstep
      · obtain ⟨rfl, -⟩ := Prod.mk.inj (Option.some.inj hstep)
        rfl
  rcases hnext with ⟨hs₁, ht₁⟩ | ⟨hs₁, ht₁⟩
  · rw [hs₁, ht₁]
    exact ⟨hs.turn ht hturn, hspecs, htask, hturn.addr, hcounts⟩
  · rw [hs₁, ht₁]
    refine ⟨(hs.turn ht hturn).cleanup t₁, ?_, ?_, hturn.addr, hcounts⟩
    · rw [(cleanup_undisturbed s₁ t₁).marks.specs, hspecs]
    · exact .of_running (Or.inr rfl) htask.current

theorem settle_raised {failure e : Exn} {next : Session × Task}
    (he : (settle t failure next).2.2 = some e) :
    (settle t failure next).2.1.point = .disconnect := by
  unfold settle at he ⊢
  cases hraised : raisedBy t next.2 failure with
  | none =>
    rw [hraised] at he
    cases he
  | some e' =>
    by_cases hstruct : e' = .structError
    · subst hstruct
      rfl
    · have hpoint : next.2.point = .disconnect := by
        unfold raisedBy at hraised
        split at hraised
        · exact absurd (Option.some.inj hraised).symm hstruct
        · split at hraised
          · next hp => exact hp
          · cases hraised
      cases e' with
      | structError => exact absurd rfl hstruct
      | _ => exact hpoint

theorem runPeer_raised {e : Exn} (h : runPeer sha1 kind a s w = some (next, wire))
    (he : next.2.2 = some e) : next.2.1.point = .disconnect := by
  cases a with
  | starts =>
    obtain ⟨next', -, heq⟩ := Option.map_eq_some_iff.mp h
    obtain ⟨rfl, -⟩ := Prod.mk.inj heq
    exact settle_raised he
  | receives hint =>
    simp only [runPeer] at h
    split at h
    · have heq := Option.some.inj h
      unfold receive at heq
      split at heq
      · obtain ⟨rfl, -⟩ := Prod.mk.inj heq
        exact settle_raised he
      all_goals
        obtain ⟨rfl, -⟩ := Prod.mk.inj heq
        rfl
    · cases h
  | returns hint =>
    simp only [runPeer] at h
    split at h
    · cases h
    · obtain ⟨next', -, heq⟩ := Option.map_eq_some_iff.mp h
      obtain ⟨rfl, -⟩ := Prod.mk.inj heq
      exact settle_raised he
  | raises e =>
    obtain ⟨r, hraises, heq⟩ := Option.map_eq_some_iff.mp h
    obtain ⟨rfl, -⟩ := Prod.mk.inj heq
    obtain ⟨-, -, -, rfl⟩ := awaitRaises_eq hraises
    rfl
  | cancels addr connected hint =>
    obtain ⟨r, hcancels, heq⟩ := Option.map_eq_some_iff.mp h
    obtain ⟨rfl, -⟩ := Prod.mk.inj heq
    unfold broadcast at hcancels
    split at hcancels
    · split at hcancels
      · obtain rfl := Option.some.inj hcancels
        rfl
      · obtain ⟨next', -, rfl⟩ := Option.map_eq_some_iff.mp hcancels
        exact settle_raised he
    · cases hcancels
  | fetches | stores | rechokes =>
    obtain ⟨next', -, heq⟩ := Option.map_eq_some_iff.mp h
    obtain ⟨rfl, -⟩ := Prod.mk.inj heq
    cases he
  | closes outcome => cases h
  | emits outcome => cases h
  | changes hub => cases h

/-- A task at its disconnection does nothing more in `run_peer`. -/
theorem runPeer_disconnect (hp : w.task.point = .disconnect)
    (h : runPeer sha1 kind a s w = some (next, wire)) :
    next.2.2 = none ∧ next.2.1.point = .disconnect := by
  obtain ⟨b, s₁, t₁, hstep, hdis | ⟨amChoking, rfl⟩, -⟩ := runPeer_step h
  · exact absurd hp hdis
  cases a with
  | rechokes x =>
    obtain ⟨next', hnext, heq⟩ := Option.map_eq_some_iff.mp h
    obtain ⟨rfl, -⟩ := Prod.mk.inj heq
    simp only [taskStep] at hnext
    split at hnext
    · cases hnext
    · obtain rfl := Option.some.inj hnext
      exact ⟨rfl, hp⟩
  | _ => simp [runPeer, taskStep, awaitRaises, broadcast, hp] at h

theorem escapes_caught {e e' : Exn} (h : escapes e = some e') : caughtByWrapper e' = false := by
  unfold escapes at h
  split at h
  · cases h
  · next hcaught =>
    obtain rfl := Option.some.inj h
    cases e with
    | osError => exact absurd rfl hcaught
    | _ => rfl

end PeerExceptions
