import Aiobt.BencodeGrammar

/-! # Places in a bencoded text

`ReadsAt` describes the places of a text where the decoder looks for a value or a key, in terms of
the texts it has consumed. The recursion limit is hit where a value is looked for with no nested call
left. -/
namespace BencodePlaces

open ByteStrings PyDecimal BencodeCodec BencodeGrammar

/-- What the decoder looks for: a value of `decode` or `decode_all` itself, a list item, a key
with the key before it, or the value of a key. -/
inductive Slot where
  | top
  | item
  | key (prev : Option Bytes)
  | value (key : Bytes)
  deriving DecidableEq

def Slot.TakesValue : Slot → Prop
  | .key _ => False
  | _ => True

/-- Having consumed `p`, the decoder stands at the slot; `many` is `decode_all`. The first index
is the number of nested calls left for a value there. -/
inductive ReadsAt (many : Bool) (maxDigits depth : ℕ) : ℕ → Slot → Bytes → Prop
  | start : ReadsAt many maxDigits depth depth .top []
  | next {d p w v} : many = true → ReadsAt many maxDigits depth d .top p →
      Denotes maxDigits d w v → ReadsAt many maxDigits depth d .top (p ++ w)
  | list {d slot p} : ReadsAt many maxDigits depth (d + 1) slot p → slot.TakesValue →
      ReadsAt many maxDigits depth d .item (p ++ [chrL])
  | item {d p w v} : ReadsAt many maxDigits depth d .item p → Denotes maxDigits d w v →
      ReadsAt many maxDigits depth d .item (p ++ w)
  | dict {d slot p} : ReadsAt many maxDigits depth (d + 1) slot p → slot.TakesValue →
      ReadsAt many maxDigits depth d (.key none) (p ++ [chrD])
  | key {d p prev wk k} : ReadsAt many maxDigits depth d (.key prev) p →
      StringText maxDigits wk k → (∀ q ∈ prev, q < k) →
      ReadsAt many maxDigits depth d (.value k) (p ++ wk)
  | value {d p w k v} : ReadsAt many maxDigits depth d (.value k) p → Denotes maxDigits d w v →
      ReadsAt many maxDigits depth d (.key (some k)) (p ++ w)

/-- `_decode_any` is called at the slot. No value is looked for at the end of the text, except that of
a key, and no item at the end of its list. -/
def Slot.Calls : Slot → Bytes → Prop
  | .top, rest => rest ≠ []
  | .item, rest => ∃ b ∈ rest.head?, b ≠ chrE
  | .key _, _ => False
  | .value _, _ => True

/-- Somewhere in the text `_decode_any` is called with no nested call left. -/
def TooDeep (many : Bool) (maxDigits depth : ℕ) (s : Bytes) : Prop :=
  ∃ slot p rest, ReadsAt many maxDigits depth 0 slot p ∧ s = p ++ rest ∧ slot.Calls rest

variable {many : Bool} {maxDigits depth d : ℕ} {s p r : Bytes} {slot : Slot}

theorem ReadsAt.room (h : ReadsAt many maxDigits depth d slot p) : depth ≤ d + p.length := by
  induction h with
  | start => exact Nat.le_add_right _ _
  | list _ _ ih | dict _ _ ih =>
    rw [List.length_append, List.length_singleton]
    omega
  | next _ _ _ ih | item _ _ ih | key _ _ _ ih | value _ _ ih =>
    rw [List.length_append]
    omega

theorem not_tooDeep (h : s.length < depth) : ¬ TooDeep many maxDigits depth s := by
  rintro ⟨slot, p, rest, hp, rfl, -⟩
  have hroom := hp.room
  rw [List.length_append] at h
  omega

theorem getElem?_append_length {p r : Bytes} : (p ++ r)[p.length]? = r.head? := by
  cases r with
  | nil => simp
  | cons b r => simp

theorem consumed {v : BencodeValue} {q : ℕ} (hs : s = p ++ r)
    (h : decodeAny maxDigits s d p.length = .ok (v, q)) :
    ∃ w t, Denotes maxDigits d w v ∧ s = (p ++ w) ++ t ∧ q = (p ++ w).length := by
  obtain ⟨-, w, t, hd, hw, rfl⟩ := decodeAny_sound s d _ _ _ h
  rw [hs, List.drop_left] at hd
  exact ⟨w, t, hw, by rw [hs, hd, List.append_assoc], by rw [List.length_append]⟩

theorem decodeAny_text {w t : Bytes} {v : BencodeValue} (hs : s = (p ++ w) ++ t)
    (hw : Denotes maxDigits d w v) : decodeAny maxDigits s d p.length = .ok (v, (p ++ w).length) := by
  have hs' : s = p ++ (w ++ t) := by rw [hs, List.append_assoc]
  rw [List.length_append]
  exact decodeAny_complete s d p.length w t v (by rw [hs', List.length_append]; omega)
    (by rw [hs', List.drop_left]) hw

theorem decodeBytes_text {wk t k : Bytes} (hs : s = (p ++ wk) ++ t) (hwk : StringText maxDigits wk k) :
    decodeBytes maxDigits s p.length = .ok (k, (p ++ wk).length) := by
  have hs' : s = p ++ (wk ++ t) := by rw [hs, List.append_assoc]
  rw [List.length_append]
  exact decodeBytes_of_text (by rw [hs', List.drop_left]) hwk
    (by rw [hs', List.length_append]; omega)

def Rejects {α : Type} (o : Outcome α) : Prop :=
  ∀ e, o = .error e → ∃ reason, e = .decodeError reason

theorem rejects_ok {α : Type} (a : α) : Rejects (.ok a) := by
  intro e h
  cases h

theorem rejects_decode {α : Type} (reason : DecodeError) : Rejects (raiseDecode reason : Outcome α) := by
  intro e h
  cases h
  exact ⟨reason, rfl⟩

theorem Rejects.ne_recursionError {α : Type} {o : Outcome α} (h : Rejects o) :
    o ≠ .error .recursionError := by
  intro heq
  obtain ⟨reason, hno⟩ := h _ heq
  cases hno

theorem map_ne_recursionError {α β : Type} {f : α → β} {o : Outcome α}
    (h : o.map f = .error .recursionError) : o = .error .recursionError := by
  cases o with
  | ok a => cases h
  | error e =>
    cases h
    rfl

theorem decodeInt_rejects (buf : Bytes) (pos : ℕ) : Rejects (decodeInt maxDigits buf pos) := by
  simp only [decodeInt, findByte]
  split
  · simp only [bind, Except.bind]
    split_ifs
    · exact rejects_decode _
    · exact rejects_decode _
    · exact rejects_decode _
    · exact rejects_decode _
    · split
      · exact rejects_ok _
      · exact rejects_decode _
  · exact rejects_decode _

theorem decodeBytes_rejects (buf : Bytes) (pos : ℕ) : Rejects (decodeBytes maxDigits buf pos) := by
  simp only [decodeBytes, findByte]
  split
  · simp only [bind, Except.bind]
    split_ifs
    · exact rejects_decode _
    · split
      · exact rejects_decode _
      · split_ifs
        · exact rejects_decode _
        · exact rejects_ok _
  · exact rejects_decode _

/-- The second decoder does what the first one does within its limit. -/
def Extends (item item' : ℕ → Outcome (BencodeValue × ℕ)) : Prop :=
  ∀ pos, item pos ≠ .error .recursionError → item' pos = item pos

section
variable {item item' : ℕ → Outcome (BencodeValue × ℕ)} {buf : Bytes}

theorem decodeListLoop_extends (h : Extends item item') {fuel pos : ℕ} {items : List BencodeValue}
    (hdeep : decodeListLoop item buf fuel pos items ≠ .error .recursionError) :
    decodeListLoop item' buf fuel pos items = decodeListLoop item buf fuel pos items := by
  induction fuel generalizing pos items with
  | zero => rfl
  | succ fuel ih =>
    rw [decodeListLoop] at hdeep ⊢
    rw [decodeListLoop]
    split at hdeep
    · rfl
    · split at hdeep
      · next he => rw [if_pos he, if_pos he]
      · next he =>
        rw [if_neg he, if_neg he]
        cases hv : item pos with
        | error e =>
          rw [hv] at hdeep
          rw [h pos (by rw [hv]; exact fun heq => hdeep (by rw [Except.error.inj heq]; rfl)), hv]
          rfl
        | ok v =>
          rw [hv] at hdeep
          rw [h pos (by rw [hv]; exact fun heq => by cases heq), hv]
          exact ih hdeep

theorem decodeDictLoop_extends (h : Extends item item') {fuel pos : ℕ} {prev : Option Bytes}
    {result : List (Bytes × BencodeValue)}
    (hdeep : decodeDictLoop maxDigits item buf fuel pos prev result ≠ .error .recursionError) :
    decodeDictLoop maxDigits item' buf fuel pos prev result =
      decodeDictLoop maxDigits item buf fuel pos prev result := by
  induction fuel generalizing pos prev result with
  | zero => rfl
  | succ fuel ih =>
    cases hb : buf[pos]? with
    | none => rw [decodeDictLoop, decodeDictLoop, hb]
    | some b =>
      by_cases he : b = chrE
      · rw [decodeDictLoop, decodeDictLoop, hb]
        simp only [if_pos he]
      · cases hdig : isDigit b with
        | false =>
          rw [decodeDictLoop, decodeDictLoop, hb]
          simp only [if_neg he, hdig, if_true]
        | true =>
          rw [decodeDictLoop_succ hb he hdig] at hdeep ⊢
          rw [decodeDictLoop_succ hb he hdig]
          cases hk : decodeBytes maxDigits buf pos with
          | error e => rfl
          | ok k =>
            rw [hk] at hdeep
            simp only [Except.bind] at hdeep ⊢
            split at hdeep
            · rfl
            · cases hv : item k.2 with
              | error e =>
                rw [hv] at hdeep
                rw [h k.2 (by rw [hv]; exact fun heq => hdeep (by rw [Except.error.inj heq])), hv]
              | ok v =>
                rw [hv] at hdeep
                rw [h k.2 (by rw [hv]; exact fun heq => by cases heq), hv]
                exact ih hdeep

end

theorem decodeAny_extends (s : Bytes) (d : ℕ) :
    Extends (decodeAny maxDigits s d) (decodeAny maxDigits s (d + 1)) := by
  induction d with
  | zero =>
    intro pos hdeep
    exact absurd rfl hdeep
  | succ d ih =>
    intro pos hdeep
    rw [decodeAny] at hdeep ⊢
    rw [decodeAny]
    split at hdeep
    · rfl
    · next lead hb =>
      by_cases hi : lead = chrI
      · rw [if_pos hi, if_pos hi]
      · rw [if_neg hi] at hdeep
        rw [if_neg hi, if_neg hi]
        by_cases hl : lead = chrL
        · rw [if_pos hl] at hdeep
          rw [if_pos hl, if_pos hl, decodeList, decodeList, decodeListLoop_extends ih]
          intro hloop
          exact hdeep (by rw [decodeList, hloop]; rfl)
        · rw [if_neg hl] at hdeep
          rw [if_neg hl, if_neg hl]
          by_cases hd : lead = chrD
          · rw [if_pos hd] at hdeep
            rw [if_pos hd, if_pos hd, decodeDict, decodeDict, decodeDictLoop_extends ih]
            intro hloop
            exact hdeep (by rw [decodeDict, hloop]; rfl)
          · rw [if_neg hd, if_neg hd]

theorem decodeAny_mono {d' pos : ℕ} (hle : d ≤ d')
    (hdeep : decodeAny maxDigits s d pos ≠ .error .recursionError) :
    decodeAny maxDigits s d' pos = decodeAny maxDigits s d pos := by
  induction hle with
  | refl => rfl
  | step _ ih => rw [decodeAny_extends s _ pos (by rw [ih]; exact hdeep), ih]

theorem decode_mono {depth' : ℕ} (hle : depth ≤ depth')
    (hdeep : decode maxDigits depth s ≠ .error .recursionError) :
    decode maxDigits depth' s = decode maxDigits depth s := by
  unfold decode at hdeep ⊢
  split
  · rfl
  · next hnil =>
    rw [if_neg hnil] at hdeep
    rw [decodeAny_mono hle]
    intro hany
    rw [hany] at hdeep
    exact hdeep rfl

theorem decodeAll_mono {depth' : ℕ} (hle : depth ≤ depth')
    (hdeep : decodeAll maxDigits depth s ≠ .error .recursionError) :
    decodeAll maxDigits depth' s = decodeAll maxDigits depth s := by
  have hloop : ∀ fuel pos values,
      decodeAllLoop maxDigits depth s fuel pos values ≠ .error .recursionError →
      decodeAllLoop maxDigits depth' s fuel pos values = decodeAllLoop maxDigits depth s fuel pos values := by
    intro fuel
    induction fuel with
    | zero => intro _ _ _; rfl
    | succ fuel ih =>
      intro pos values hdeep
      rw [decodeAllLoop] at hdeep ⊢
      rw [decodeAllLoop]
      by_cases hlt : pos < s.length
      · rw [if_pos hlt] at hdeep
        rw [if_pos hlt, if_pos hlt]
        cases hv : decodeAny maxDigits s depth pos with
        | error e =>
          rw [hv] at hdeep
          rw [decodeAny_mono hle (by rw [hv]; exact fun heq => hdeep (by rw [Except.error.inj heq]; rfl)), hv]
          rfl
        | ok v =>
          rw [hv] at hdeep
          rw [decodeAny_mono hle (by rw [hv]; exact fun heq => by cases heq), hv]
          exact ih _ _ hdeep
      · rw [if_neg hlt, if_neg hlt]
  exact hloop _ _ _ hdeep

/-- A value that hits the limit has a place in it, or is at one, where that happens. -/
def FindsDeep (many : Bool) (maxDigits depth : ℕ) (s : Bytes) (d : ℕ) : Prop :=
  ∀ slot p r, ReadsAt many maxDigits depth d slot p → slot.TakesValue → s = p ++ r → slot.Calls r →
    decodeAny maxDigits s d p.length = .error .recursionError → TooDeep many maxDigits depth s

theorem decodeListLoop_deep (hitem : FindsDeep many maxDigits depth s d) {fuel : ℕ}
    {items : List BencodeValue} (hp : ReadsAt many maxDigits depth d .item p) (hs : s = p ++ r)
    (h : decodeListLoop (decodeAny maxDigits s d) s fuel p.length items = .error .recursionError) :
    TooDeep many maxDigits depth s := by
  induction fuel generalizing p r items with
  | zero => cases h
  | succ fuel ih =>
    rw [decodeListLoop] at h
    split at h
    · cases h
    · next b hb =>
      split at h
      · cases h
      · next he =>
        cases hv : decodeAny maxDigits s d p.length with
        | error e =>
          rw [hv] at h
          cases h
          rw [hs, getElem?_append_length] at hb
          exact hitem .item p r hp trivial hs ⟨b, hb, he⟩ hv
        | ok a =>
          obtain ⟨v, q⟩ := a
          rw [hv] at h
          obtain ⟨w, t, hw, hs', rfl⟩ := consumed hs hv
          exact ih (hp.item hw) hs' h

theorem decodeDictLoop_deep (hitem : FindsDeep many maxDigits depth s d) {fuel : ℕ}
    {result : List (Bytes × BencodeValue)} {prev : Option Bytes}
    (hp : ReadsAt many maxDigits depth d (.key prev) p) (hs : s = p ++ r)
    (h : decodeDictLoop maxDigits (decodeAny maxDigits s d) s fuel p.length prev result =
      .error .recursionError) : TooDeep many maxDigits depth s := by
  induction fuel generalizing p r prev result with
  | zero => cases h
  | succ fuel ih =>
    cases hb : s[p.length]? with
    | none =>
      rw [decodeDictLoop, hb] at h
      cases h
    | some b =>
      by_cases he : b = chrE
      · rw [decodeDictLoop, hb] at h
        simp only [if_pos he] at h
        cases h
      · cases hdig : isDigit b with
        | false =>
          rw [decodeDictLoop, hb] at h
          simp only [if_neg he, hdig, if_true] at h
          cases h
        | true =>
          rw [decodeDictLoop_succ hb he hdig] at h
          cases hk : decodeBytes maxDigits s p.length with
          | error e =>
            rw [hk] at h
            obtain rfl : e = .recursionError := Except.error.inj h
            exact absurd hk (decodeBytes_rejects s p.length).ne_recursionError
          | ok a =>
            obtain ⟨k, q⟩ := a
            obtain ⟨wk, t, hd, hwk, rfl⟩ := decodeBytes_ok hb hdig hk
            rw [hs, List.drop_left] at hd
            rw [hk] at h
            simp only [Except.bind] at h
            split at h
            · cases h
            · next hfilter =>
              have hp' := hp.key hwk (filter_keys_none.mp hfilter)
              have hs' : s = (p ++ wk) ++ t := by rw [hs, hd, List.append_assoc]
              rw [← List.length_append] at h
              cases hv : decodeAny maxDigits s d (p ++ wk).length with
              | error e =>
                rw [hv] at h
                obtain rfl : e = .recursionError := Except.error.inj h
                exact hitem (.value k) _ t hp' trivial hs' trivial hv
              | ok a =>
                obtain ⟨v, q⟩ := a
                rw [hv] at h
                obtain ⟨w, t', hw, hs'', rfl⟩ := consumed hs' hv
                exact ih (hp'.value hw) hs'' h

theorem decodeAny_deep (many : Bool) (maxDigits depth : ℕ) (s : Bytes) (d : ℕ) :
    FindsDeep many maxDigits depth s d := by
  induction d with
  | zero =>
    intro slot p r hp _ hs hcalls _
    exact ⟨slot, p, r, hp, hs, hcalls⟩
  | succ d ih =>
    intro slot p r hp htakes hs _ h
    rw [decodeAny] at h
    split at h
    · cases h
    · next lead hb =>
      have hr : r = lead :: r.tail := by
        rw [hs, getElem?_append_length] at hb
        exact (List.cons_head?_tail hb).symm
      split at h
      · exact absurd (map_ne_recursionError h) (decodeInt_rejects s p.length).ne_recursionError
      · split at h
        · next hl =>
          have hs' : s = (p ++ [chrL]) ++ r.tail := by
            rw [List.append_assoc, List.singleton_append, ← hl, ← hr, hs]
          have hloop := map_ne_recursionError h
          rw [decodeList, show p.length + 1 = (p ++ [chrL]).length by simp] at hloop
          exact decodeListLoop_deep ih (hp.list htakes) hs' hloop
        · split at h
          · next hd =>
            have hs' : s = (p ++ [chrD]) ++ r.tail := by
              rw [List.append_assoc, List.singleton_append, ← hd, ← hr, hs]
            have hloop := map_ne_recursionError h
            rw [decodeDict, show p.length + 1 = (p ++ [chrD]).length by simp] at hloop
            exact decodeDictLoop_deep ih (hp.dict htakes) hs' hloop
          · split at h
            · exact absurd (map_ne_recursionError h) (decodeBytes_rejects s p.length).ne_recursionError
            · cases h

/-- The run that continues at a slot hits the limit, with whatever was read before. -/
def StopsAt (many : Bool) (maxDigits : ℕ) (s : Bytes) (d : ℕ) : Slot → ℕ → Prop
  | .top, pos =>
    (many = false → decodeAny maxDigits s d pos = .error .recursionError) ∧
    (many = true → ∀ fuel values, s.length < fuel + pos →
      decodeAllLoop maxDigits d s fuel pos values = .error .recursionError)
  | .item, pos => ∀ fuel items, s.length < fuel + pos →
    decodeListLoop (decodeAny maxDigits s d) s fuel pos items = .error .recursionError
  | .key prev, pos => ∀ fuel result, s.length < fuel + pos →
    decodeDictLoop maxDigits (decodeAny maxDigits s d) s fuel pos prev result = .error .recursionError
  | .value k, pos => ∀ fuel result, s.length < fuel + pos →
    ((decodeAny maxDigits s d pos).bind fun r =>
      decodeDictLoop maxDigits (decodeAny maxDigits s d) s fuel r.2 (some k)
        (setItem result k r.1)) = .error .recursionError

theorem stopsAt_of_value (htakes : slot.TakesValue) (hs : s = p ++ r) (hcalls : slot.Calls r)
    (hvalue : decodeAny maxDigits s d p.length = .error .recursionError) :
    StopsAt many maxDigits s d slot p.length := by
  cases slot with
  | top =>
    refine ⟨fun _ => hvalue, fun _ fuel values hfuel => ?_⟩
    have hlt : p.length < s.length := by
      have hpos := List.length_pos_of_ne_nil hcalls
      rw [hs, List.length_append]
      omega
    obtain ⟨fuel, rfl⟩ := Nat.exists_eq_add_one_of_ne_zero (show fuel ≠ 0 by omega)
    rw [decodeAllLoop, if_pos hlt, hvalue]
    rfl
  | item =>
    intro fuel items hfuel
    obtain ⟨b, hb, he⟩ := hcalls
    have hat : s[p.length]? = some b := by
      rw [hs, getElem?_append_length]
      exact hb
    have hlt : p.length < s.length := (List.getElem?_eq_some_iff.mp hat).1
    obtain ⟨fuel, rfl⟩ := Nat.exists_eq_add_one_of_ne_zero (show fuel ≠ 0 by omega)
    rw [decodeListLoop, hat]
    simp only [if_neg he, hvalue]
    rfl
  | key prev => exact htakes.elim
  | value k =>
    intro fuel result hfuel
    rw [hvalue]
    rfl

/-- A limit that is hit at a slot is hit by the whole run. -/
theorem ReadsAt.stops (hp : ReadsAt many maxDigits depth d slot p) (hs : s = p ++ r)
    (hstops : StopsAt many maxDigits s d slot p.length) (hroom : slot = .top → r ≠ []) :
    (many = false → decode maxDigits depth s = .error .recursionError) ∧
      (many = true → decodeAll maxDigits depth s = .error .recursionError) := by
  induction hp generalizing r with
  | start =>
    refine ⟨fun hmany => ?_, fun hmany => hstops.2 hmany _ _ (by simp)⟩
    have hany : decodeAny maxDigits s depth 0 = .error .recursionError := hstops.1 hmany
    rw [decode, if_neg (by rw [hs]; exact hroom rfl), hany]
    rfl
  | @next d p w v hmany hp hw ih =>
    have hs' : s = p ++ (w ++ r) := by rw [hs, List.append_assoc]
    have hpos := hw.length_pos
    have hlt : p.length < s.length := by
      rw [hs', List.length_append, List.length_append]
      omega
    refine ih hs' ⟨fun hone => ?_, fun _ fuel values hfuel => ?_⟩ fun _ => by
      have hne := hroom rfl
      simp [hne]
    · rw [hmany] at hone
      cases hone
    · obtain ⟨fuel, rfl⟩ := Nat.exists_eq_add_one_of_ne_zero (show fuel ≠ 0 by omega)
      rw [decodeAllLoop, if_pos hlt, decodeAny_text hs hw]
      exact hstops.2 hmany fuel _ (by rw [List.length_append]; omega)
  | @list d slot p hp htakes ih =>
    have hs' : s = p ++ (chrL :: r) := by rw [hs, List.append_assoc]; rfl
    have hb : s[p.length]? = some chrL := by rw [hs', getElem?_append_length]; rfl
    have hcalls : slot.Calls (chrL :: r) := by
      cases slot with
      | top => exact List.cons_ne_nil _ _
      | item => exact ⟨chrL, rfl, by decide⟩
      | key prev => exact htakes
      | value k => trivial
    refine ih hs' (stopsAt_of_value htakes hs' hcalls ?_) fun _ => List.cons_ne_nil _ _
    have hloop := hstops (s.length + 1) [] (by omega)
    rw [List.length_append, List.length_singleton] at hloop
    rw [decodeAny, hb]
    simp only [show chrL ≠ chrI by decide, if_false, if_true, decodeList, hloop]
    rfl
  | @item d p w v hp hw ih =>
    have hs' : s = p ++ (w ++ r) := by rw [hs, List.append_assoc]
    obtain ⟨b, rest, hhead, he⟩ := hw.head
    have hb : s[p.length]? = some b := by rw [hs', getElem?_append_length, hhead]; rfl
    have hlt : p.length < s.length := (List.getElem?_eq_some_iff.mp hb).1
    have hpos := hw.length_pos
    refine ih hs' (fun fuel items hfuel => ?_) (by simp)
    obtain ⟨fuel, rfl⟩ := Nat.exists_eq_add_one_of_ne_zero (show fuel ≠ 0 by omega)
    rw [decodeListLoop, hb]
    simp only [if_neg he, decodeAny_text hs hw]
    exact hstops fuel _ (by rw [List.length_append]; omega)
  | @dict d slot p hp htakes ih =>
    have hs' : s = p ++ (chrD :: r) := by rw [hs, List.append_assoc]; rfl
    have hb : s[p.length]? = some chrD := by rw [hs', getElem?_append_length]; rfl
    have hcalls : slot.Calls (chrD :: r) := by
      cases slot with
      | top => exact List.cons_ne_nil _ _
      | item => exact ⟨chrD, rfl, by decide⟩
      | key prev => exact htakes
      | value k => trivial
    refine ih hs' (stopsAt_of_value htakes hs' hcalls ?_) fun _ => List.cons_ne_nil _ _
    have hloop := hstops (s.length + 1) [] (by omega)
    rw [List.length_append, List.length_singleton] at hloop
    rw [decodeAny, hb]
    simp only [show chrD ≠ chrI by decide, show chrD ≠ chrL by decide, if_false, if_true, decodeDict,
      hloop]
    rfl
  | @key d p prev wk k hp hwk hlt ih =>
    have hs' : s = p ++ (wk ++ r) := by rw [hs, List.append_assoc]
    obtain ⟨b, rest, hhead, hdig⟩ := hwk.head
    have hb : s[p.length]? = some b := by rw [hs', getElem?_append_length, hhead]; rfl
    have hlt' : p.length < s.length := (List.getElem?_eq_some_iff.mp hb).1
    have hpos : 0 < wk.length := by rw [hhead]; exact Nat.succ_pos _
    refine ih hs' (fun fuel result hfuel => ?_) (by simp)
    obtain ⟨fuel, rfl⟩ := Nat.exists_eq_add_one_of_ne_zero (show fuel ≠ 0 by omega)
    rw [decodeDictLoop_succ hb (digit_ne hdig).1 hdig, decodeBytes_text hs hwk]
    simp only [Except.bind, filter_keys_none.mpr hlt]
    exact hstops fuel result (by rw [List.length_append]; omega)
  | @value d p w k v hp hw ih =>
    have hs' : s = p ++ (w ++ r) := by rw [hs, List.append_assoc]
    have hpos := hw.length_pos
    refine ih hs' (fun fuel result hfuel => ?_) (by simp)
    rw [decodeAny_text hs hw]
    exact hstops fuel _ (by rw [List.length_append]; omega)

theorem TooDeep.stops (h : TooDeep many maxDigits depth s) :
    (many = false → decode maxDigits depth s = .error .recursionError) ∧
      (many = true → decodeAll maxDigits depth s = .error .recursionError) := by
  obtain ⟨slot, p, r, hp, hs, hcalls⟩ := h
  have htakes : slot.TakesValue := by
    cases slot with
    | key prev => exact hcalls
    | _ => trivial
  refine hp.stops hs (stopsAt_of_value htakes hs hcalls rfl) ?_
  rintro rfl
  exact hcalls

/-- `decode` raises `RecursionError` exactly on the texts that are nested too deeply. -/
theorem decode_recursionError_iff :
    decode maxDigits depth s = .error .recursionError ↔ TooDeep false maxDigits depth s := by
  constructor
  · intro h
    unfold decode at h
    split at h
    · cases h
    · next hnil =>
      cases hv : decodeAny maxDigits s depth 0 with
      | error e =>
        rw [hv] at h
        obtain rfl : e = .recursionError := Except.error.inj h
        exact decodeAny_deep false maxDigits depth s depth .top [] s .start trivial rfl hnil hv
      | ok r =>
        rw [hv] at h
        simp only [bind, Except.bind] at h
        split at h
        · cases h
        · cases h
  · exact fun h => h.stops.1 rfl

theorem decodeAll_recursionError_iff :
    decodeAll maxDigits depth s = .error .recursionError ↔ TooDeep true maxDigits depth s := by
  constructor
  · have hloop : ∀ fuel p r values, ReadsAt true maxDigits depth depth .top p → s = p ++ r →
        decodeAllLoop maxDigits depth s fuel p.length values = .error .recursionError →
        TooDeep true maxDigits depth s := by
      intro fuel
      induction fuel with
      | zero =>
        intro p r values _ _ h
        cases h
      | succ fuel ih =>
        intro p r values hp hs h
        rw [decodeAllLoop] at h
        split at h
        · next hlt =>
          cases hv : decodeAny maxDigits s depth p.length with
          | error e =>
            rw [hv] at h
            obtain rfl : e = .recursionError := Except.error.inj h
            refine decodeAny_deep true maxDigits depth s depth .top p r hp trivial hs ?_ hv
            rintro rfl
            rw [hs, List.append_nil] at hlt
            exact lt_irrefl _ hlt
          | ok a =>
            obtain ⟨v, q⟩ := a
            rw [hv] at h
            obtain ⟨w, t, hw, hs', rfl⟩ := consumed hs hv
            exact ih _ t _ (hp.next rfl hw) hs' h
        · cases h
    exact hloop _ [] s [] .start rfl
  · exact fun h => h.stops.2 rfl

theorem decode_of_shallow {depth' : ℕ} (h : ¬ TooDeep false maxDigits depth s) (hroom : s.length < depth') :
    decode maxDigits depth' s = decode maxDigits depth s := by
  rw [← decode_mono (le_max_left depth depth') (mt decode_recursionError_iff.mp h),
    ← decode_mono (le_max_right depth depth') (mt decode_recursionError_iff.mp (not_tooDeep hroom))]

theorem decodeAll_of_shallow {depth' : ℕ} (h : ¬ TooDeep true maxDigits depth s)
    (hroom : s.length < depth') : decodeAll maxDigits depth' s = decodeAll maxDigits depth s := by
  rw [← decodeAll_mono (le_max_left depth depth') (mt decodeAll_recursionError_iff.mp h),
    ← decodeAll_mono (le_max_right depth depth') (mt decodeAll_recursionError_iff.mp (not_tooDeep hroom))]

end BencodePlaces
