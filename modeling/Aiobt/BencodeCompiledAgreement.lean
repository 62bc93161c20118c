import Aiobt.BencodeCompiled
import Aiobt.BencodePlaces

/-! # Where the compiled decoder agrees with the pure one

The two differ only where a string's length, added to the position of its first byte, leaves
`Py_ssize_t`. `ReadsAt` describes the places of a text where the decoder looks for a value or a
key, in terms of the texts it has consumed. -/
namespace BencodeCompiledAgreement

open ByteStrings PyDecimal MachineIntegers BencodeGrammar BencodePlaces BencodeCompiled
open BencodeCodec (BencodeValue DecodeError PyError Outcome chrI chrL chrD chrE chrColon setItem)

/-- The same value, or `DecodeError` from both. -/
def Agree {α : Type} : Outcome α → COutcome α → Prop
  | .ok v, .ok w => v = w
  | .error (.decodeError _), .error (.raised (.decodeError _)) => True
  | _, _ => False

/-- Every `buf[i]` evaluated is inside the buffer. -/
def InBounds {α : Type} (o : COutcome α) : Prop := ∀ i, o ≠ .error (.outOfBounds i)

def failure? {α : Type} : COutcome α → Option Failure
  | .ok _ => none
  | .error f => some f

theorem failure?_eq_some {α : Type} {c : COutcome α} {f : Failure} :
    failure? c = some f ↔ c = .error f := by
  cases c with
  | ok a => simp [failure?]
  | error f' => simp [failure?]

theorem Agree.inBounds {α : Type} {o : Outcome α} {c : COutcome α} (h : Agree o c) :
    InBounds c := by
  rintro i rfl
  cases o with
  | ok v => exact h
  | error e =>
    cases e with
    | decodeError reason => exact h
    | valueError => exact h
    | recursionError => exact h
    | stuck => exact h

def Raises {α : Type} (o : Outcome α) : Prop :=
  ∀ e, o = .error e → (∃ reason, e = .decodeError reason) ∨ e = .recursionError

section
variable {maxDigits : ℕ} {buf : Bytes}

theorem raises_ok {α : Type} (a : α) : Raises (.ok a) := by
  intro e h
  cases h

theorem raises_decode {α : Type} (reason : DecodeError) :
    Raises (BencodeCodec.raiseDecode reason : Outcome α) := by
  intro e h
  cases h
  exact Or.inl ⟨reason, rfl⟩

theorem Raises.map {α β : Type} {f : α → β} {o : Outcome α} (h : Raises o) : Raises (o.map f) := by
  cases o with
  | ok a => exact raises_ok _
  | error e =>
    intro e' he
    obtain rfl : e = e' := by simpa [Except.map] using he
    exact h e rfl

theorem Raises.bind {α β : Type} {o : Outcome α} {f : α → Outcome β} (h : Raises o)
    (hf : ∀ a, o = .ok a → Raises (f a)) : Raises (o.bind f) := by
  cases o with
  | ok a => exact hf a rfl
  | error e =>
    intro e' he
    obtain rfl : e = e' := by simpa [Except.bind] using he
    exact h e rfl

theorem raises_of_rejects {α : Type} {o : Outcome α} (h : Rejects o) : Raises o :=
  fun e he => Or.inl (h e he)

variable {P : Bytes → BencodeValue → Prop} {item : ℕ → Outcome (BencodeValue × ℕ)}

/-- An item takes at least one byte, so the iterations suffice. -/
theorem decodeListLoop_raises (hsound : Sound P item buf) (hlength : ∀ w v, P w v → 0 < w.length)
    (hitem : ∀ pos, Raises (item pos)) {fuel pos : ℕ} (hpos : pos ≤ buf.length)
    (hfuel : buf.length < fuel + pos) (items : List BencodeValue) :
    Raises (BencodeCodec.decodeListLoop item buf fuel pos items) := by
  induction fuel generalizing pos items with
  | zero => omega
  | succ fuel ih =>
    rw [BencodeCodec.decodeListLoop]
    split
    · exact raises_decode _
    · split
      · exact raises_ok _
      · apply (hitem pos).bind
        intro r hv
        obtain ⟨v, q⟩ := r
        obtain ⟨-, w, t, hd, hw, rfl⟩ := hsound pos v q hv
        have := hlength w v hw
        have := length_of_drop hd hpos
        exact ih (by omega) (by omega) (items ++ [v])

theorem decodeDictLoop_raises (hsound : Sound P item buf) (hlength : ∀ w v, P w v → 0 < w.length)
    (hitem : ∀ pos, Raises (item pos)) {fuel pos : ℕ} (hpos : pos ≤ buf.length)
    (hfuel : buf.length < fuel + pos) (prev : Option Bytes)
    (result : List (Bytes × BencodeValue)) :
    Raises (BencodeCodec.decodeDictLoop maxDigits item buf fuel pos prev result) := by
  induction fuel generalizing pos prev result with
  | zero => omega
  | succ fuel ih =>
    cases hb : buf[pos]? with
    | none =>
      rw [BencodeCodec.decodeDictLoop, hb]
      exact raises_decode _
    | some b =>
      by_cases he : b = chrE
      · rw [BencodeCodec.decodeDictLoop, hb]
        simp only [if_pos he]
        exact raises_ok _
      · cases hdig : isDigit b with
        | false =>
          rw [BencodeCodec.decodeDictLoop, hb]
          simp only [if_neg he, hdig, if_true]
          exact raises_decode _
        | true =>
          rw [decodeDictLoop_succ hb he hdig]
          apply (raises_of_rejects (decodeBytes_rejects buf pos)).bind
          intro r hr
          obtain ⟨wk, t, hd, hk, hq⟩ := decodeBytes_ok hb hdig hr
          have := length_of_drop hd hpos
          split
          · exact raises_decode _
          · apply (hitem r.2).bind
            intro s hv
            obtain ⟨v, q⟩ := s
            obtain ⟨hle, w, t', hd', hw, rfl⟩ := hsound r.2 v q hv
            have := hlength w v hw
            have := length_of_drop hd' hle
            exact ih (by dsimp only; omega) (by dsimp only; omega) _ _

theorem decodeAny_raises (depth pos : ℕ) :
    Raises (BencodeCodec.decodeAny maxDigits buf depth pos) := by
  induction depth generalizing pos with
  | zero =>
    intro e h
    cases h
    exact Or.inr rfl
  | succ depth ih =>
    have hlength : ∀ w v, Denotes maxDigits depth w v → 0 < w.length := fun _ _ h => h.length_pos
    rw [BencodeCodec.decodeAny]
    split
    · exact raises_decode _
    · next lead hb =>
      have hpos : pos < buf.length := (List.getElem?_eq_some_iff.mp hb).1
      split_ifs
      · exact (raises_of_rejects (decodeInt_rejects buf pos)).map
      · exact (decodeListLoop_raises (decodeAny_sound buf depth) hlength ih hpos (by omega) []).map
      · exact (decodeDictLoop_raises (decodeAny_sound buf depth) hlength ih hpos (by omega)
          none []).map
      · exact (raises_of_rejects (decodeBytes_rejects buf pos)).map
      · exact raises_decode _

end

/-- At a slot that the decoder reaches stands a length prefix for which `start + length` leaves
the range of `Py_ssize_t`. -/
def OverflowsAt (many : Bool) (maxDigits : ℕ) (s : Bytes) (slot : Slot)
    (length : ℤ) : Prop :=
  ∃ d p rest raw, ReadsAt many maxDigits (s.length + 1) d slot p ∧
    s = p ++ (raw ++ chrColon :: rest) ∧ LengthText maxDigits raw length ∧
    2 ^ 63 ≤ (p.length + raw.length + 1 : ℕ) + length

/-- The slots where a string that ends at a negative position is rejected all the same: `decode`
finds trailing data, and an empty key is never above the key before it. -/
def RejectsEmpty (many : Bool) : Slot → Prop
  | .top => many = false
  | .key (some _) => True
  | _ => False

/-- Every overflowing length fits `Py_ssize_t` by itself and stands where the decoder goes on to
reject the text. -/
def HarmlessOverflows (many : Bool) (maxDigits : ℕ) (s : Bytes) : Prop :=
  ∀ slot length, OverflowsAt many maxDigits s slot length →
    length < 2 ^ 63 ∧ RejectsEmpty many slot

section
variable {many : Bool} {maxDigits : ℕ} {s : Bytes}

/-- How the runs of the two decoders from one slot compare. They are equal, or the pure one
rejects, and the compiled one does so too, or leaves the top level with a negative position, or
has met an overflow that matters. -/
def Tracks {α : Type} (many : Bool) (maxDigits : ℕ) (s : Bytes) (slot : Slot)
    (o : Outcome (α × ℕ)) (c : COutcome (α × ℤ)) : Prop :=
  c = lift o ∨ ∃ e, o = BencodeCodec.raiseDecode e ∧
    ((∃ e', c = raiseDecode e') ∨
     (slot = .top ∧ many = false ∧ ∃ v q, c = .ok (v, q) ∧ q < 0) ∨
     ¬ HarmlessOverflows many maxDigits s)

theorem Tracks.map {α β : Type} {slot : Slot} {o : Outcome (α × ℕ)} {c : COutcome (α × ℤ)}
    (f : α → β) (h : Tracks many maxDigits s slot o c) :
    Tracks many maxDigits s slot (o.map fun r => (f r.1, r.2))
      (c.map fun r => (f r.1, r.2)) := by
  rcases h with rfl | ⟨e, rfl, ⟨e', rfl⟩ | ⟨hslot, hmany, v, q, rfl, hq⟩ | hharm⟩
  · exact Or.inl (lift_map f o).symm
  · exact Or.inr ⟨e, rfl, Or.inl ⟨e', rfl⟩⟩
  · exact Or.inr ⟨e, rfl, Or.inr (Or.inl ⟨hslot, hmany, f v, q, rfl, hq⟩)⟩
  · exact Or.inr ⟨e, rfl, Or.inr (Or.inr hharm)⟩

/-- A nested run that goes on where the two decoders agree. -/
theorem Tracks.bind {α β : Type} {slot slot' : Slot} {o : Outcome (α × ℕ)} {c : COutcome (α × ℤ)}
    {f : α × ℕ → Outcome (β × ℕ)} {g : α × ℤ → COutcome (β × ℤ)}
    (h : Tracks many maxDigits s slot o c) (hne : slot ≠ .top)
    (hok : ∀ a q, o = .ok (a, q) → Tracks many maxDigits s slot' (f (a, q)) (g (a, (q : ℤ)))) :
    Tracks many maxDigits s slot' (o.bind f) (c.bind g) := by
  rcases h with rfl | ⟨e, rfl, ⟨e', rfl⟩ | ⟨hslot, -⟩ | hharm⟩
  · cases o with
    | error e => exact Or.inl rfl
    | ok r => exact hok r.1 r.2 rfl
  · exact Or.inr ⟨e, rfl, Or.inl ⟨e', rfl⟩⟩
  · exact absurd hslot hne
  · exact Or.inr ⟨e, rfl, Or.inr (Or.inr hharm)⟩

theorem Tracks.slot {α : Type} {slot slot' : Slot} {o : Outcome (α × ℕ)} {c : COutcome (α × ℤ)}
    (h : Tracks many maxDigits s slot o c) (hne : slot ≠ .top) :
    Tracks many maxDigits s slot' o c := by
  rcases h with heq | ⟨e, ho, hcomp | ⟨hslot, -⟩ | hharm⟩
  · exact Or.inl heq
  · exact Or.inr ⟨e, ho, Or.inl hcomp⟩
  · exact absurd hslot hne
  · exact Or.inr ⟨e, ho, Or.inr (Or.inr hharm)⟩

/-- Reading a string at a slot: equal outcomes, or an overflow, which leaves an empty string
where it does not matter. -/
theorem decodeBytes_tracks (hlen : s.length < 2 ^ 63) {d : ℕ} {slot : Slot} {p r : Bytes}
    {b : UInt8} (hp : ReadsAt many maxDigits (s.length + 1) d slot p) (hs : s = p ++ r)
    (hb : s[p.length]? = some b) (hdig : isDigit b = true) :
    decodeBytes maxDigits s s.length p.length =
        lift (BencodeCodec.decodeBytes maxDigits s p.length) ∨
    ∃ e, BencodeCodec.decodeBytes maxDigits s p.length = BencodeCodec.raiseDecode e ∧
      ((RejectsEmpty many slot ∧
          ∃ q, q < 0 ∧ decodeBytes maxDigits s s.length p.length = .ok ([], q)) ∨
        ¬ HarmlessOverflows many maxDigits s) := by
  rcases decodeBytes_cases hlen hb hdig with heq | ⟨length, e, hover, hpure⟩
  · exact Or.inl heq
  · refine Or.inr ⟨e, hpure, ?_⟩
    have hcomp := decodeBytes_overflow hlen (List.getElem?_eq_some_iff.mp hb).1.le hover
    have hat : OverflowsAt many maxDigits s slot length := by
      obtain ⟨raw, t, hd, htext, hbig⟩ := hover
      rw [hs, List.drop_left] at hd
      exact ⟨d, p, t, raw, hp, by rw [hs, hd], htext, hbig⟩
    by_cases hharm : HarmlessOverflows many maxDigits s
    · left
      obtain ⟨hfits, hrej⟩ := hharm slot length hat
      rcases hcomp with ⟨hbig, -⟩ | ⟨-, hq⟩
      · omega
      · exact ⟨hrej, hq⟩
    · exact Or.inr hharm

/-- The induction hypothesis of `decodeAny_tracks`, for the loops inside a list or dict. -/
def ItemTracks (many : Bool) (maxDigits : ℕ) (s : Bytes) (d : ℕ) : Prop :=
  ∀ slot p r, ReadsAt many maxDigits (s.length + 1) d slot p → slot.TakesValue → s = p ++ r →
    Tracks many maxDigits s slot (BencodeCodec.decodeAny maxDigits s d p.length)
      (decodeAny maxDigits s s.length d p.length)

theorem decodeListLoop_tracks (hlen : s.length < 2 ^ 63) {d : ℕ}
    (hitem : ItemTracks many maxDigits s d) (fuel : ℕ) (items : List BencodeValue)
    {p r : Bytes} (hp : ReadsAt many maxDigits (s.length + 1) d .item p) (hs : s = p ++ r) :
    Tracks many maxDigits s .item
      (BencodeCodec.decodeListLoop (BencodeCodec.decodeAny maxDigits s d) s fuel p.length items)
      (decodeListLoop (decodeAny maxDigits s s.length d) s s.length fuel p.length items) := by
  induction fuel generalizing p r items with
  | zero => exact Or.inl rfl
  | succ fuel ih =>
    rw [BencodeCodec.decodeListLoop, decodeListLoop]
    cases hb : s[p.length]? with
    | none =>
      have hge : s.length ≤ p.length := List.getElem?_eq_none_iff.mp hb
      rw [if_pos (by omega)]
      exact Or.inl rfl
    | some b =>
      have hlt : p.length < s.length := (List.getElem?_eq_some_iff.mp hb).1
      rw [if_neg (by omega), readByte_nat hb]
      simp only [bind, Except.bind]
      by_cases he : b = chrE
      · rw [if_pos he, if_pos he, ssize_succ hlen hlt]
        exact Or.inl rfl
      · rw [if_neg he, if_neg he]
        apply (hitem .item p r hp trivial hs).bind (by simp)
        intro v q hv
        obtain ⟨w, t, hw, hs', rfl⟩ := consumed hs hv
        exact ih _ (hp.item hw) hs'

theorem decodeDictLoop_tracks (hlen : s.length < 2 ^ 63) {d : ℕ}
    (hitem : ItemTracks many maxDigits s d) (fuel : ℕ) (result : List (Bytes × BencodeValue))
    {p r : Bytes} {prev : Option Bytes} (hp : ReadsAt many maxDigits (s.length + 1) d (.key prev) p)
    (hs : s = p ++ r) :
    Tracks many maxDigits s (.key prev)
      (BencodeCodec.decodeDictLoop maxDigits (BencodeCodec.decodeAny maxDigits s d) s fuel
        p.length prev result)
      (decodeDictLoop maxDigits (decodeAny maxDigits s s.length d) s s.length fuel
        p.length prev result) := by
  induction fuel generalizing p r prev result with
  | zero => exact Or.inl rfl
  | succ fuel ih =>
    cases hb : s[p.length]? with
    | none =>
      have hge : s.length ≤ p.length := List.getElem?_eq_none_iff.mp hb
      rw [BencodeCodec.decodeDictLoop, decodeDictLoop, hb, if_pos (by omega)]
      exact Or.inl rfl
    | some b =>
      have hlt : p.length < s.length := (List.getElem?_eq_some_iff.mp hb).1
      by_cases he : b = chrE
      · rw [BencodeCodec.decodeDictLoop, decodeDictLoop, hb, if_neg (by omega), readByte_nat hb]
        simp only [bind, Except.bind, if_pos he, ssize_succ hlen hlt]
        exact Or.inl rfl
      · cases hdig : isDigit b with
        | false =>
          rw [BencodeCodec.decodeDictLoop, decodeDictLoop, hb, if_neg (by omega), readByte_nat hb]
          simp only [bind, Except.bind, if_neg he, hdig, if_true]
          exact Or.inl rfl
        | true =>
          rw [decodeDictLoop_succ hb he hdig, decodeDictLoop_key hb he hdig]
          rcases decodeBytes_tracks hlen hp hs hb hdig with heq | ⟨e, hpure, hcomp⟩
          · rw [heq]
            cases hk : BencodeCodec.decodeBytes maxDigits s p.length with
            | error e => exact Or.inl rfl
            | ok a =>
              obtain ⟨k, q⟩ := a
              obtain ⟨wk, t, hd, hwk, rfl⟩ := decodeBytes_ok hb hdig hk
              rw [hs, List.drop_left] at hd
              simp only [lift_ok, Except.bind]
              cases hfilter : prev.filter (fun p => decide (k ≤ p)) with
              | some p => exact Or.inl rfl
              | none =>
                have hp' := hp.key hwk (filter_keys_none.mp hfilter)
                have hs' : s = (p ++ wk) ++ t := by rw [hs, hd, List.append_assoc]
                have hvalue := hitem (.value k) (p ++ wk) t hp' trivial hs'
                rw [List.length_append] at hvalue
                apply hvalue.bind (by simp)
                intro v q hv
                rw [← List.length_append] at hv
                obtain ⟨w, t', hw, hs'', rfl⟩ := consumed hs' hv
                exact (ih _ (hp'.value hw) hs'').slot (by simp)
          · refine Or.inr ⟨e, by rw [hpure]; rfl, ?_⟩
            rcases hcomp with ⟨hrej, q, hq, hcomp⟩ | hharm
            · cases prev with
              | none => exact hrej.elim
              | some prev =>
                -- the empty key is not above the key before it
                left
                refine ⟨.keysOutOfOrder prev [], ?_⟩
                rw [hcomp]
                simp [Except.bind, Option.filter]
            · exact Or.inr (Or.inr hharm)

theorem decodeAny_tracks (hlen : s.length < 2 ^ 63) (d : ℕ) : ItemTracks many maxDigits s d := by
  induction d with
  | zero =>
    -- no place is nested so deeply
    intro slot p r hp htakes hs
    have hroom := hp.room
    rw [hs, List.length_append] at hroom
    omega
  | succ d ih =>
    intro slot p r hp htakes hs
    rw [BencodeCodec.decodeAny, decodeAny]
    cases hb : s[p.length]? with
    | none =>
      have hge : s.length ≤ p.length := List.getElem?_eq_none_iff.mp hb
      rw [if_pos (by omega)]
      exact Or.inl rfl
    | some lead =>
      have hlt : p.length < s.length := (List.getElem?_eq_some_iff.mp hb).1
      have hr : r = lead :: r.tail := by
        rw [hs, getElem?_append_length] at hb
        exact (List.cons_head?_tail hb).symm
      rw [if_neg (by omega), readByte_nat hb]
      simp only [bind, Except.bind]
      by_cases hi : lead = chrI
      · rw [if_pos hi, if_pos hi, decodeInt_lift hlen hlt]
        exact Or.inl (lift_map _ _).symm
      · rw [if_neg hi, if_neg hi]
        by_cases hl : lead = chrL
        · have hs' : s = (p ++ [chrL]) ++ r.tail := by
            rw [List.append_assoc, List.singleton_append, ← hl, ← hr, hs]
          have hloop := decodeListLoop_tracks hlen ih (s.length + 1) [] (hp.list htakes) hs'
          rw [if_pos hl, if_pos hl, BencodeCodec.decodeList, decodeList, ssize_succ hlen hlt]
          rw [List.length_append, List.length_singleton] at hloop
          exact (hloop.map _).slot (by simp)
        · rw [if_neg hl, if_neg hl]
          by_cases hd : lead = chrD
          · have hs' : s = (p ++ [chrD]) ++ r.tail := by
              rw [List.append_assoc, List.singleton_append, ← hd, ← hr, hs]
            have hloop := decodeDictLoop_tracks hlen ih (s.length + 1) [] (hp.dict htakes) hs'
            rw [if_pos hd, if_pos hd, BencodeCodec.decodeDict, decodeDict, ssize_succ hlen hlt]
            rw [List.length_append, List.length_singleton] at hloop
            exact (hloop.map _).slot (by simp)
          · rw [if_neg hd, if_neg hd]
            cases hdig : isDigit lead with
            | false => exact Or.inl rfl
            | true =>
              have hbytes : Tracks many maxDigits s slot
                  (BencodeCodec.decodeBytes maxDigits s p.length)
                  (decodeBytes maxDigits s s.length p.length) := by
                rcases decodeBytes_tracks hlen hp hs hb hdig with heq | ⟨e, hpure, hcomp⟩
                · exact Or.inl heq
                · refine Or.inr ⟨e, hpure, Or.inr ?_⟩
                  rcases hcomp with ⟨hrej, q, hq, hcomp⟩ | hharm
                  · cases slot with
                    | top => exact Or.inl ⟨rfl, hrej, [], q, hcomp, hq⟩
                    | item => exact hrej.elim
                    | key prev => exact htakes.elim
                    | value k => exact hrej.elim
                  · exact Or.inr hharm
              exact hbytes.map _

theorem agree_error {α : Type} {e : PyError}
    (hraises : (∃ reason, e = .decodeError reason) ∨ e = .recursionError)
    (hdeep : e ≠ .recursionError) :
    Agree (.error e : Outcome α) (.error (.raised e)) := by
  rcases hraises with ⟨reason, rfl⟩ | rfl
  · trivial
  · exact absurd rfl hdeep

theorem decode_agree (hlen : s.length < 2 ^ 63) (hharm : HarmlessOverflows false maxDigits s) :
    Agree (BencodeCodec.decode maxDigits (s.length + 1) s) (decode maxDigits s) := by
  have hdeep : BencodeCodec.decode maxDigits (s.length + 1) s ≠ .error .recursionError :=
    mt decode_recursionError_iff.mp (not_tooDeep (Nat.lt_succ_self _))
  have htracks : Tracks false maxDigits s .top (BencodeCodec.decodeAny maxDigits s (s.length + 1) 0)
      (decodeAny maxDigits s s.length (s.length + 1) 0) :=
    decodeAny_tracks hlen _ .top [] s ReadsAt.start trivial rfl
  by_cases hnil : s = []
  · rw [BencodeCodec.decode, decode, if_pos hnil, if_pos hnil]
    trivial
  · rw [BencodeCodec.decode, if_neg hnil] at hdeep ⊢
    rw [decode, if_neg hnil]
    rcases htracks with heq | ⟨e, hpure, ⟨e', hcomp⟩ | ⟨-, -, v, q, hcomp, hq⟩ | hnot⟩
    · rw [heq]
      cases hv : BencodeCodec.decodeAny maxDigits s (s.length + 1) 0 with
      | error e =>
        rw [hv] at hdeep
        exact agree_error (decodeAny_raises _ 0 e hv) fun he => hdeep (by rw [he]; rfl)
      | ok r =>
        obtain ⟨v, q⟩ := r
        simp only [lift_ok, bind, Except.bind]
        by_cases hend : q ≠ s.length
        · rw [if_pos hend, if_pos (by omega)]
          trivial
        · rw [if_neg hend, if_neg (by omega)]
          rfl
    · rw [hpure, hcomp]
      trivial
    · rw [hpure, hcomp]
      simp only [bind, Except.bind]
      rw [if_pos (by omega)]
      trivial
    · exact absurd hharm hnot

theorem decodeAllLoop_agree (hlen : s.length < 2 ^ 63)
    (hharm : HarmlessOverflows true maxDigits s) {fuel : ℕ} {p r : Bytes}
    {values : List BencodeValue} (hp : ReadsAt true maxDigits (s.length + 1) (s.length + 1) .top p) (hs : s = p ++ r)
    (hfuel : s.length < fuel + p.length)
    (hdeep : BencodeCodec.decodeAllLoop maxDigits (s.length + 1) s fuel p.length values ≠
      .error .recursionError) :
    Agree (BencodeCodec.decodeAllLoop maxDigits (s.length + 1) s fuel p.length values)
      (decodeAllLoop maxDigits (s.length + 1) s s.length fuel p.length values) := by
  have hle : p.length ≤ s.length := by rw [hs, List.length_append]; omega
  induction fuel generalizing p r values with
  | zero => omega
  | succ fuel ih =>
    rw [BencodeCodec.decodeAllLoop] at hdeep ⊢
    rw [decodeAllLoop]
    by_cases hlt : p.length < s.length
    · rw [if_pos hlt] at hdeep ⊢
      rw [if_pos (by omega)]
      rcases decodeAny_tracks hlen _ .top p r hp trivial hs with
        heq | ⟨e, hpure, ⟨e', hcomp⟩ | ⟨-, hmany, -⟩ | hnot⟩
      · rw [heq]
        cases hv : BencodeCodec.decodeAny maxDigits s (s.length + 1) p.length with
        | error e =>
          rw [hv] at hdeep
          exact agree_error (decodeAny_raises _ p.length e hv)
            fun he => hdeep (by rw [he]; rfl)
        | ok a =>
          obtain ⟨v, q⟩ := a
          rw [hv] at hdeep
          obtain ⟨w, t, hw, hs', rfl⟩ := consumed hs hv
          have hpos := hw.length_pos
          refine ih (hp.next rfl hw) hs' (by rw [List.length_append]; omega) hdeep ?_
          have hl := congrArg List.length hs'
          rw [List.length_append] at hl
          omega
      · rw [hpure, hcomp]
        trivial
      · cases hmany
      · exact absurd hharm hnot
    · rw [if_neg hlt, if_neg (by omega)]
      rfl

theorem decodeAll_agree (hlen : s.length < 2 ^ 63) (hharm : HarmlessOverflows true maxDigits s) :
    Agree (BencodeCodec.decodeAll maxDigits (s.length + 1) s) (decodeAll maxDigits s) :=
  decodeAllLoop_agree hlen hharm (p := []) ReadsAt.start rfl (by simp)
    (mt decodeAll_recursionError_iff.mp (not_tooDeep (Nat.lt_succ_self _)))

/-- The compiled run that continues at a slot ends in `f`, with whatever was read before. -/
def FailsAt (many : Bool) (maxDigits : ℕ) (s : Bytes) (f : Failure) (d : ℕ) : Slot → ℕ → Prop
  | .top, pos =>
    (many = false → decodeAny maxDigits s s.length d pos = .error f) ∧
    (many = true → ∀ fuel values, s.length < fuel + pos →
      decodeAllLoop maxDigits d s s.length fuel pos values = .error f)
  | .item, pos => ∀ fuel items, s.length < fuel + pos →
    decodeListLoop (decodeAny maxDigits s s.length d) s s.length fuel pos items = .error f
  | .key prev, pos => ∀ fuel result, s.length < fuel + pos →
    decodeDictLoop maxDigits (decodeAny maxDigits s s.length d) s s.length fuel pos prev result =
      .error f
  | .value k, pos => ∀ fuel result, s.length < fuel + pos →
    ((decodeAny maxDigits s s.length d pos).bind fun r =>
      decodeDictLoop maxDigits (decodeAny maxDigits s s.length d) s s.length fuel r.2 (some k)
        (setItem result k r.1)) = .error f

variable {f : Failure}

theorem failsAt_of_value {d pos : ℕ} {slot : Slot} {b : UInt8} (htakes : slot.TakesValue)
    (hb : s[pos]? = some b) (he : b ≠ chrE)
    (hvalue : decodeAny maxDigits s s.length d pos = .error f) :
    FailsAt many maxDigits s f d slot pos := by
  have hlt : pos < s.length := (List.getElem?_eq_some_iff.mp hb).1
  cases slot with
  | top =>
    refine ⟨fun _ => hvalue, fun _ fuel values hfuel => ?_⟩
    obtain ⟨fuel, rfl⟩ := Nat.exists_eq_add_one_of_ne_zero (show fuel ≠ 0 by omega)
    rw [decodeAllLoop, if_pos (by omega), hvalue]
    rfl
  | item =>
    intro fuel items hfuel
    obtain ⟨fuel, rfl⟩ := Nat.exists_eq_add_one_of_ne_zero (show fuel ≠ 0 by omega)
    rw [decodeListLoop, if_neg (by omega), readByte_nat hb]
    simp only [bind, Except.bind, if_neg he, hvalue]
  | key prev => exact htakes.elim
  | value k =>
    intro fuel result hfuel
    rw [hvalue]
    rfl

/-- The compiled decoder reads what the grammar describes. -/
theorem decodeAny_text (hlen : s.length < 2 ^ 63) {d : ℕ} {slot : Slot} {p w t : Bytes}
    {v : BencodeValue} (hp : ReadsAt many maxDigits (s.length + 1) d slot p) (htakes : slot.TakesValue)
    (hs : s = (p ++ w) ++ t) (hw : Denotes maxDigits d w v) :
    decodeAny maxDigits s s.length d p.length = .ok (v, ((p ++ w).length : ℤ)) := by
  have hs' : s = p ++ (w ++ t) := by rw [hs, List.append_assoc]
  have hpure : BencodeCodec.decodeAny maxDigits s d p.length = .ok (v, (p ++ w).length) :=
    BencodePlaces.decodeAny_text hs hw
  rcases decodeAny_tracks hlen d slot p _ hp htakes hs' with heq | ⟨e, he, -⟩
  · rw [heq, hpure]
    rfl
  · rw [hpure] at he
    cases he

theorem decodeBytes_text (hlen : s.length < 2 ^ 63) {d : ℕ} {prev : Option Bytes}
    {p wk t k : Bytes} (hp : ReadsAt many maxDigits (s.length + 1) d (.key prev) p)
    (hs : s = (p ++ wk) ++ t) (hwk : StringText maxDigits wk k) :
    decodeBytes maxDigits s s.length p.length = .ok (k, ((p ++ wk).length : ℤ)) := by
  have hs' : s = p ++ (wk ++ t) := by rw [hs, List.append_assoc]
  have hpure : BencodeCodec.decodeBytes maxDigits s p.length = .ok (k, (p ++ wk).length) :=
    BencodePlaces.decodeBytes_text hs hwk
  obtain ⟨b, rest, rfl, hdig⟩ := hwk.head
  have hb : s[p.length]? = some b := by
    rw [hs', getElem?_append_length]
    rfl
  rcases decodeBytes_tracks hlen hp hs' hb hdig with heq | ⟨e, he, -⟩
  · rw [heq, hpure]
    rfl
  · rw [hpure] at he
    cases he

theorem fails_of_reads (hlen : s.length < 2 ^ 63) {d : ℕ} {slot : Slot} {p r : Bytes}
    (hp : ReadsAt many maxDigits (s.length + 1) d slot p) (hs : s = p ++ r) (hr : r ≠ [])
    (hfails : FailsAt many maxDigits s f d slot p.length) :
    (many = false → decode maxDigits s = .error f) ∧
      (many = true → decodeAll maxDigits s = .error f) := by
  induction hp generalizing r with
  | start =>
    refine ⟨fun hmany => ?_, fun hmany => hfails.2 hmany _ _ (by simp)⟩
    have hany : decodeAny maxDigits s s.length (s.length + 1) 0 = .error f := hfails.1 hmany
    rw [decode, if_neg (by rw [hs]; exact hr), hany]
    rfl
  | @next d p w v hmany hp hw ih =>
    have hs' : s = p ++ (w ++ r) := by rw [hs, List.append_assoc]
    have hpos := hw.length_pos
    have hlt : p.length < s.length := by
      rw [hs', List.length_append, List.length_append]
      omega
    refine ih hs' (by simp [hr]) ⟨fun hone => ?_, fun _ fuel values hfuel => ?_⟩
    · rw [hmany] at hone
      cases hone
    · obtain ⟨fuel, rfl⟩ := Nat.exists_eq_add_one_of_ne_zero (show fuel ≠ 0 by omega)
      rw [decodeAllLoop, if_pos (by omega), decodeAny_text hlen hp trivial hs hw]
      exact hfails.2 hmany fuel _ (by rw [List.length_append]; omega)
  | @list d slot p hp htakes ih =>
    have hs' : s = p ++ (chrL :: r) := by rw [hs, List.append_assoc]; rfl
    have hb : s[p.length]? = some chrL := by rw [hs', getElem?_append_length]; rfl
    have hlt : p.length < s.length := (List.getElem?_eq_some_iff.mp hb).1
    refine ih hs' (by simp) (failsAt_of_value htakes hb (by decide) ?_)
    have hloop := hfails (s.length + 1) [] (by omega)
    rw [List.length_append, List.length_singleton] at hloop
    rw [decodeAny_list hb rfl, decodeList, ssize_succ hlen hlt, hloop]
    rfl
  | @item d p w v hp hw ih =>
    have hs' : s = p ++ (w ++ r) := by rw [hs, List.append_assoc]
    obtain ⟨b, rest, hhead, he⟩ := hw.head
    have hb : s[p.length]? = some b := by rw [hs', getElem?_append_length, hhead]; rfl
    have hlt : p.length < s.length := (List.getElem?_eq_some_iff.mp hb).1
    have hpos := hw.length_pos
    apply ih hs' (by simp [hr])
    intro fuel items hfuel
    obtain ⟨fuel, rfl⟩ := Nat.exists_eq_add_one_of_ne_zero (show fuel ≠ 0 by omega)
    rw [decodeListLoop, if_neg (by omega), readByte_nat hb]
    simp only [bind, Except.bind, if_neg he, decodeAny_text hlen hp trivial hs hw]
    exact hfails fuel _ (by rw [List.length_append]; omega)
  | @dict d slot p hp htakes ih =>
    have hs' : s = p ++ (chrD :: r) := by rw [hs, List.append_assoc]; rfl
    have hb : s[p.length]? = some chrD := by rw [hs', getElem?_append_length]; rfl
    have hlt : p.length < s.length := (List.getElem?_eq_some_iff.mp hb).1
    refine ih hs' (by simp) (failsAt_of_value htakes hb (by decide) ?_)
    have hloop := hfails (s.length + 1) [] (by omega)
    rw [List.length_append, List.length_singleton] at hloop
    rw [decodeAny_dict hb rfl, decodeDict, ssize_succ hlen hlt, hloop]
    rfl
  | @key d p prev wk k hp hwk hlt ih =>
    have hs' : s = p ++ (wk ++ r) := by rw [hs, List.append_assoc]
    obtain ⟨b, rest, hhead, hdig⟩ := hwk.head
    have hb : s[p.length]? = some b := by rw [hs', getElem?_append_length, hhead]; rfl
    have hlt' : p.length < s.length := (List.getElem?_eq_some_iff.mp hb).1
    have hpos : 0 < wk.length := by rw [hhead]; exact Nat.succ_pos _
    apply ih hs' (by simp [hr])
    intro fuel result hfuel
    obtain ⟨fuel, rfl⟩ := Nat.exists_eq_add_one_of_ne_zero (show fuel ≠ 0 by omega)
    rw [decodeDictLoop_key hb (digit_ne hdig).1 hdig, decodeBytes_text hlen hp hs hwk]
    simp only [Except.bind, filter_keys_none.mpr hlt]
    exact hfails fuel result (by rw [List.length_append]; omega)
  | @value d p w k v hp hw ih =>
    have hs' : s = p ++ (w ++ r) := by rw [hs, List.append_assoc]
    have hpos := hw.length_pos
    apply ih hs' (by simp [hr])
    intro fuel result hfuel
    rw [decodeAny_text hlen hp trivial hs hw]
    exact hfails fuel _ (by rw [List.length_append]; omega)

theorem decodeAny_neg {d : ℕ} {q : ℤ} (hq : q < 0) :
    decodeAny maxDigits s s.length (d + 1) q = .error (.outOfBounds q) := by
  rw [decodeAny, if_neg (by omega), readByte_neg hq]
  rfl

/-- Neither a value nor `DecodeError`. -/
def Breaks (f : Failure) : Prop := f = .overflowError ∨ ∃ i, f = .outOfBounds i

/-- A string read that raises `OverflowError` makes its slot fail. -/
theorem failsAt_of_overflowError {d pos : ℕ} {slot : Slot} {b : UInt8} (hb : s[pos]? = some b)
    (hdig : isDigit b = true)
    (hread : decodeBytes maxDigits s s.length pos = .error .overflowError) :
    FailsAt many maxDigits s .overflowError (d + 1) slot pos := by
  have he := (digit_ne hdig).1
  have hvalue : slot.TakesValue → FailsAt many maxDigits s .overflowError (d + 1) slot pos := by
    intro htakes
    refine failsAt_of_value htakes hb he ?_
    rw [decodeAny_bytes hb hdig, hread]
    rfl
  cases slot with
  | top => exact hvalue trivial
  | item => exact hvalue trivial
  | value k => exact hvalue trivial
  | key prev =>
    have hlt : pos < s.length := (List.getElem?_eq_some_iff.mp hb).1
    intro fuel result hfuel
    obtain ⟨fuel, rfl⟩ := Nat.exists_eq_add_one_of_ne_zero (show fuel ≠ 0 by omega)
    rw [decodeDictLoop_key hb he hdig, hread]
    rfl

/-- A string that ends at a negative position makes its slot fail, unless the slot rejects it. -/
theorem failsAt_of_negative {d pos : ℕ} {slot : Slot} {b : UInt8} {q : ℤ} (hb : s[pos]? = some b)
    (hnext : pos + 1 < s.length) (hdig : isDigit b = true) (hq : q < 0)
    (hread : decodeBytes maxDigits s s.length pos = .ok ([], q))
    (hslot : ¬ RejectsEmpty many slot) : FailsAt many maxDigits s (.outOfBounds q) (d + 1) slot pos := by
  have he := (digit_ne hdig).1
  cases slot with
  | key prev =>
    cases prev with
    | some k => exact absurd trivial hslot
    | none =>
      -- the value of the key is looked for at the negative position
      intro fuel result hfuel
      obtain ⟨fuel, rfl⟩ := Nat.exists_eq_add_one_of_ne_zero (show fuel ≠ 0 by omega)
      rw [decodeDictLoop_key hb he hdig, hread]
      simp only [Except.bind, Option.filter_none, decodeAny_neg hq]
  | top =>
    refine ⟨fun hone => absurd hone hslot, fun _ fuel values hfuel => ?_⟩
    obtain ⟨fuel, rfl⟩ : ∃ n, fuel = n + 2 := ⟨fuel - 2, by omega⟩
    rw [decodeAllLoop, if_pos (by omega), decodeAny_bytes hb hdig, hread]
    simp only [bind, Except.bind, Except.map]
    rw [decodeAllLoop, if_pos (by omega), decodeAny_neg hq]
    rfl
  | item =>
    intro fuel items hfuel
    obtain ⟨fuel, rfl⟩ : ∃ n, fuel = n + 2 := ⟨fuel - 2, by omega⟩
    rw [decodeListLoop, if_neg (by omega), readByte_nat hb]
    simp only [bind, Except.bind, if_neg he, decodeAny_bytes hb hdig, hread, Except.map]
    rw [decodeListLoop, if_neg (by omega), readByte_neg hq]
    rfl
  | value k =>
    intro fuel result hfuel
    obtain ⟨fuel, rfl⟩ := Nat.exists_eq_add_one_of_ne_zero (show fuel ≠ 0 by omega)
    rw [decodeAny_bytes hb hdig, hread]
    simp only [Except.bind, Except.map]
    rw [decodeDictLoop, if_neg (by omega), readByte_neg hq]
    rfl

/-- An overflow that is not harmless ends the run in something other than `DecodeError`. -/
theorem breaks_of_harmful (hlen : s.length < 2 ^ 63) (hharm : ¬ HarmlessOverflows many maxDigits s) :
    ∃ f, Breaks f ∧ (many = false → decode maxDigits s = .error f) ∧
      (many = true → decodeAll maxDigits s = .error f) := by
  unfold HarmlessOverflows at hharm
  push Not at hharm
  obtain ⟨slot, length, ⟨d, p, rest, raw, hp, hs, htext, hbig⟩, hnot⟩ := hharm
  obtain ⟨b, more, hraw, hdig⟩ := htext.digit
  have hb : s[p.length]? = some b := by
    rw [hs, getElem?_append_length, hraw]
    rfl
  have hnext : p.length + 1 < s.length := by
    rw [hs, hraw]
    simp
  have hover : OverflowAt maxDigits s p.length length :=
    ⟨raw, rest, by rw [hs, List.drop_left], htext, hbig⟩
  obtain ⟨d, rfl⟩ : ∃ n, d = n + 1 := ⟨d - 1, by have := hp.room; omega⟩
  have hfails : ∃ f, Breaks f ∧ FailsAt many maxDigits s f (d + 1) slot p.length := by
    rcases decodeBytes_overflow hlen (by omega) hover with ⟨-, hread⟩ | ⟨hfits, q, hq, hread⟩
    · exact ⟨_, Or.inl rfl, failsAt_of_overflowError hb hdig hread⟩
    · exact ⟨_, Or.inr ⟨q, rfl⟩, failsAt_of_negative hb hnext hdig hq hread (hnot hfits)⟩
  obtain ⟨f, hf, hat⟩ := hfails
  exact ⟨f, hf, fails_of_reads hlen hp hs (by simp) hat⟩

theorem not_agree_of_breaks {α : Type} {o : Outcome α} (hf : Breaks f) : ¬ Agree o (.error f) := by
  intro h
  rcases hf with rfl | ⟨i, rfl⟩
  · cases o with
    | ok v => exact h
    | error e => cases e <;> exact h
  · cases o with
    | ok v => exact h
    | error e => cases e <;> exact h

theorem Agree.not_deep {α : Type} {c : COutcome α} : ¬ Agree (.error .recursionError) c := by
  intro h
  cases c with
  | ok v => exact h
  | error f => exact h

theorem Agree.not_stuck {α : Type} {o : Outcome α} : ¬ Agree o (.error (.raised .stuck)) := by
  intro h
  cases o with
  | ok v => exact h
  | error e => cases e <;> exact h

theorem decode_not_stuck (hlen : s.length < 2 ^ 63) : decode maxDigits s ≠ .error (.raised .stuck) := by
  intro hstuck
  by_cases hharm : HarmlessOverflows false maxDigits s
  · have hagree := decode_agree hlen hharm
    rw [hstuck] at hagree
    exact hagree.not_stuck
  · obtain ⟨f, hf, hone, -⟩ := breaks_of_harmful hlen hharm
    obtain rfl := Except.error.inj ((hone rfl).symm.trans hstuck)
    rcases hf with hno | ⟨i, hno⟩
    · cases hno
    · cases hno

theorem decodeAll_not_stuck (hlen : s.length < 2 ^ 63) :
    decodeAll maxDigits s ≠ .error (.raised .stuck) := by
  intro hstuck
  by_cases hharm : HarmlessOverflows true maxDigits s
  · have hagree := decodeAll_agree hlen hharm
    rw [hstuck] at hagree
    exact hagree.not_stuck
  · obtain ⟨f, hf, -, hmany⟩ := breaks_of_harmful hlen hharm
    obtain rfl := Except.error.inj ((hmany rfl).symm.trans hstuck)
    rcases hf with hno | ⟨i, hno⟩
    · cases hno
    · cases hno

end

/-- For texts shorter than `2 ^ 63` bytes: the compiled decoder agrees with the pure one and reads
inside the buffer exactly when the text is not nested too deeply for the pure one and every
overflowing length is harmless. -/
theorem compiled_agrees_iff (maxDigits depth : ℕ) (s : Bytes) (hlen : s.length < 2 ^ 63) :
    ((Agree (BencodeCodec.decode maxDigits depth s) (decode maxDigits s) ∧
        InBounds (decode maxDigits s)) ↔
      ¬ TooDeep false maxDigits depth s ∧ HarmlessOverflows false maxDigits s) ∧
    ((Agree (BencodeCodec.decodeAll maxDigits depth s) (decodeAll maxDigits s) ∧
        InBounds (decodeAll maxDigits s)) ↔
      ¬ TooDeep true maxDigits depth s ∧ HarmlessOverflows true maxDigits s) := by
  refine ⟨⟨fun h => ⟨fun hdeep => ?_, ?_⟩, fun ⟨hshallow, hharm⟩ => ?_⟩,
    ⟨fun h => ⟨fun hdeep => ?_, ?_⟩, fun ⟨hshallow, hharm⟩ => ?_⟩⟩
  · rw [decode_recursionError_iff.mpr hdeep] at h
    exact Agree.not_deep h.1
  · by_contra hharm
    obtain ⟨f, hf, hone, -⟩ := breaks_of_harmful hlen hharm
    exact not_agree_of_breaks hf (hone rfl ▸ h.1)
  · rw [← decode_of_shallow hshallow (Nat.lt_succ_self s.length)]
    exact ⟨decode_agree hlen hharm, (decode_agree hlen hharm).inBounds⟩
  · rw [decodeAll_recursionError_iff.mpr hdeep] at h
    exact Agree.not_deep h.1
  · by_contra hharm
    obtain ⟨f, hf, -, hmany⟩ := breaks_of_harmful hlen hharm
    exact not_agree_of_breaks hf (hmany rfl ▸ h.1)
  · rw [← decodeAll_of_shallow hshallow (Nat.lt_succ_self s.length)]
    exact ⟨decodeAll_agree hlen hharm, (decodeAll_agree hlen hharm).inBounds⟩

theorem compiled_agrees_iff_string :
    (Agree (BencodeCodec.decode 4300 10 [49, 58, 97]) (decode 4300 [49, 58, 97]) ∧
      InBounds (decode 4300 [49, 58, 97])) ↔
        ¬ TooDeep false 4300 10 [49, 58, 97] ∧ HarmlessOverflows false 4300 [49, 58, 97] :=
  (compiled_agrees_iff 4300 10 [49, 58, 97] (by simp)).1

def hugeLength : Bytes :=
  [57, 50, 50, 51, 51, 55, 50, 48, 51, 54, 56, 53, 52, 55, 55, 53, 56, 48, 56, 58]

def wrappingItem : Bytes :=
  [108, 57, 50, 50, 51, 51, 55, 50, 48, 51, 54, 56, 53, 52, 55, 55, 53, 56, 48, 55, 58]

def nestedLists (n : ℕ) : Bytes := List.replicate n chrL ++ List.replicate n chrE

theorem compiled_diverges :
    (BencodeCodec.decode 4300 10 hugeLength =
        BencodeCodec.raiseDecode (.pastEnd 9223372036854775808 20 20) ∧
      decode 4300 hugeLength = .error .overflowError ∧
      ¬ Agree (BencodeCodec.decode 4300 10 hugeLength) (decode 4300 hugeLength)) ∧
    (BencodeCodec.decode 4300 10 wrappingItem =
        BencodeCodec.raiseDecode (.pastEnd 9223372036854775807 21 21) ∧
      decode 4300 wrappingItem = .error (.outOfBounds (21 + (2 ^ 63 - 1) - 2 ^ 64)) ∧
      ¬ InBounds (decode 4300 wrappingItem)) ∧
    (BencodeCodec.decode 4300 10 (nestedLists 11) = .error .recursionError ∧
      failure? (decode 4300 (nestedLists 11)) = none ∧
      ¬ Agree (BencodeCodec.decode 4300 10 (nestedLists 11)) (decode 4300 (nestedLists 11))) := by
  have hread : decode 4300 wrappingItem = .error (.outOfBounds (21 + (2 ^ 63 - 1) - 2 ^ 64)) :=
    failure?_eq_some.mp (by decide +kernel)
  refine ⟨⟨rfl, rfl, fun h => h⟩, ⟨rfl, hread, fun h => h _ hread⟩, rfl, rfl, Agree.not_deep⟩

end BencodeCompiledAgreement
