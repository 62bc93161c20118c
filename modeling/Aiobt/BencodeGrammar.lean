import Aiobt.BencodeCodec

/-! # The texts the decoder accepts

`Denotes maxDigits depth w v` says that the text `w` is one bencoded value `v` whose nesting
fits in `depth` calls. It speaks of texts only, never of positions. The decoder at a position
returns a value exactly when what follows there starts with such a text. The loops over lists and
dictionaries are followed for an arbitrary relation between texts and values, so that the recursion
over the nesting depth is done once, in `decodeAny_ok` and `decodeAny_of_text`. -/
namespace BencodeGrammar

open ByteStrings PyDecimal BencodeCodec

/-- The texts between `i` and `e` that pass the checks of `_decode_int`. -/
structure IntText (maxDigits : ℕ) (raw : Bytes) (value : ℤ) : Prop where
  no_end : chrE ∉ raw
  nonempty : raw ≠ []
  not_negative_zero : raw ≠ [45, 48]
  no_leading_zero : ¬ (1 < raw.length ∧ raw.take 1 = [48])
  no_negative_leading_zero : ¬ (1 < raw.length ∧ raw.take 2 = [45, 48])
  value_eq : pyInt maxDigits raw = some value

structure LengthText (maxDigits : ℕ) (raw : Bytes) (length : ℤ) : Prop where
  no_colon : chrColon ∉ raw
  digit : ∃ b rest, raw = b :: rest ∧ isDigit b = true
  no_leading_zero : ¬ (1 < raw.length ∧ raw.take 1 = [48])
  value_eq : pyInt maxDigits raw = some length

def StringText (maxDigits : ℕ) (w data : Bytes) : Prop :=
  ∃ raw, w = raw ++ chrColon :: data ∧ LengthText maxDigits raw data.length

section
variable (P : Bytes → BencodeValue → Prop)

inductive Items : Bytes → List BencodeValue → Prop where
  | nil : Items [] []
  | cons {w ws v vs} : P w v → Items ws vs → Items (w ++ ws) (v :: vs)

/-- Keys ascend strictly, starting after the key `prev`. -/
inductive Entries (maxDigits : ℕ) :
    Option Bytes → Bytes → List (Bytes × BencodeValue) → Prop where
  | nil {prev} : Entries maxDigits prev [] []
  | cons {prev wk k w v ws es} : StringText maxDigits wk k → (∀ p ∈ prev, p < k) → P w v →
      Entries maxDigits (some k) ws es → Entries maxDigits prev (wk ++ (w ++ ws)) ((k, v) :: es)

end

def Denotes (maxDigits : ℕ) : ℕ → Bytes → BencodeValue → Prop
  | 0, _, _ => False
  | _ + 1, w, .int value => ∃ raw, w = chrI :: (raw ++ [chrE]) ∧ IntText maxDigits raw value
  | _ + 1, w, .bytes data => StringText maxDigits w data
  | depth + 1, w, .list items =>
    ∃ ws, w = chrL :: (ws ++ [chrE]) ∧ Items (Denotes maxDigits depth) ws items
  | depth + 1, w, .dict items =>
    ∃ ws, w = chrD :: (ws ++ [chrE]) ∧ Entries (Denotes maxDigits depth) maxDigits none ws items

variable {maxDigits : ℕ}

theorem StringText.head {w data : Bytes} (h : StringText maxDigits w data) :
    ∃ b rest, w = b :: rest ∧ isDigit b = true := by
  obtain ⟨raw, rfl, hl⟩ := h
  obtain ⟨b, rest, rfl, hb⟩ := hl.digit
  exact ⟨b, rest ++ chrColon :: data, rfl, hb⟩

theorem digit_ne {b : UInt8} (h : isDigit b = true) :
    b ≠ chrE ∧ b ≠ chrI ∧ b ≠ chrL ∧ b ≠ chrD :=
  ⟨isDigit_ne h (by decide), isDigit_ne h (by decide), isDigit_ne h (by decide),
    isDigit_ne h (by decide)⟩

theorem Denotes.head {depth : ℕ} {w : Bytes} {v : BencodeValue}
    (h : Denotes maxDigits depth w v) : ∃ b rest, w = b :: rest ∧ b ≠ chrE := by
  cases depth with
  | zero => exact h.elim
  | succ depth =>
    cases v with
    | int value =>
      obtain ⟨raw, rfl, -⟩ := h
      exact ⟨_, _, rfl, by decide⟩
    | bytes data =>
      obtain ⟨b, rest, rfl, hb⟩ := StringText.head h
      exact ⟨b, rest, rfl, (digit_ne hb).1⟩
    | list items =>
      obtain ⟨ws, rfl, -⟩ := h
      exact ⟨_, _, rfl, by decide⟩
    | dict items =>
      obtain ⟨ws, rfl, -⟩ := h
      exact ⟨_, _, rfl, by decide⟩

theorem Denotes.length_pos {depth : ℕ} {w : Bytes} {v : BencodeValue}
    (h : Denotes maxDigits depth w v) : 0 < w.length := by
  obtain ⟨b, rest, rfl, -⟩ := h.head
  exact Nat.succ_pos _

theorem findByte_ok {buf : Bytes} {byte : UInt8} {start : ℕ} {i : ℕ}
    (h : findByte buf byte start = .ok i) :
    ∃ raw t, buf.drop start = raw ++ byte :: t ∧ byte ∉ raw ∧ i = start + raw.length := by
  unfold findByte at h
  split at h
  · next k hk =>
    obtain ⟨hlt, hb, hbefore⟩ := List.findIdx?_eq_some_iff_getElem.mp hk
    have hi : i = start + k := (Except.ok.inj h).symm
    refine ⟨(buf.drop start).take k, (buf.drop start).drop (k + 1), ?_, ?_, ?_⟩
    · have hbyte : (buf.drop start)[k] = byte := by simpa using hb
      rw [← hbyte, ← List.drop_eq_getElem_cons hlt, List.take_append_drop]
    · intro hm
      obtain ⟨j, hj, hjb⟩ := List.mem_take_iff_getElem.mp hm
      have := hbefore j (by omega)
      simp [hjb] at this
    · rw [hi, List.length_take, Nat.min_eq_left (by omega)]
  · simp [raiseDecode] at h

theorem findByte_of_drop {buf raw t : Bytes} {byte : UInt8} {start : ℕ}
    (h : buf.drop start = raw ++ byte :: t) (hn : byte ∉ raw) :
    findByte buf byte start = .ok (start + raw.length) := by
  have hk : (buf.drop start).findIdx? (· == byte) = some raw.length := by
    rw [h, List.findIdx?_append, List.findIdx?_eq_none_iff.mpr]
    · simp [List.findIdx?_cons]
    · intro b hb
      simp only [beq_eq_false_iff_ne, ne_eq]
      rintro rfl
      exact hn hb
  rw [findByte, hk]

theorem decodeInt_ok {buf : Bytes} {pos q : ℕ} {value : ℤ}
    (h : decodeInt maxDigits buf pos = .ok (value, q)) :
    ∃ raw t, buf.drop (pos + 1) = raw ++ chrE :: t ∧ IntText maxDigits raw value ∧
      q = pos + 1 + raw.length + 1 := by
  unfold decodeInt at h
  cases hf : findByte buf chrE (pos + 1) with
  | error e => simp [hf, bind, Except.bind] at h
  | ok i =>
    obtain ⟨raw, t, hd, hn, rfl⟩ := findByte_ok hf
    simp only [hf, bind, Except.bind, slice_of_drop hd] at h
    split at h
    · simp [raiseDecode] at h
    · next h1 =>
      split at h
      · simp [raiseDecode] at h
      · next h2 =>
        split at h
        · simp [raiseDecode] at h
        · next h3 =>
          split at h
          · simp [raiseDecode] at h
          · next h4 =>
            split at h
            · next v hv =>
              simp only [Except.ok.injEq, Prod.mk.injEq] at h
              obtain ⟨rfl, rfl⟩ := h
              exact ⟨raw, t, hd, ⟨hn, h1, h2, h3, h4, hv⟩, rfl⟩
            · simp [raiseDecode] at h

theorem decodeInt_of_text {buf raw t : Bytes} {pos : ℕ} {value : ℤ}
    (h : buf.drop (pos + 1) = raw ++ chrE :: t) (hr : IntText maxDigits raw value) :
    decodeInt maxDigits buf pos = .ok (value, pos + 1 + raw.length + 1) := by
  simp only [decodeInt, findByte_of_drop h hr.no_end, bind, Except.bind, slice_of_drop h,
    if_neg hr.nonempty, if_neg hr.not_negative_zero, if_neg hr.no_leading_zero,
    if_neg hr.no_negative_leading_zero, hr.value_eq]

theorem decodeBytes_ok {buf data : Bytes} {pos q : ℕ} {b : UInt8}
    (hb : buf[pos]? = some b) (hdig : isDigit b = true)
    (h : decodeBytes maxDigits buf pos = .ok (data, q)) :
    ∃ w t, buf.drop pos = w ++ t ∧ StringText maxDigits w data ∧ q = pos + w.length := by
  unfold decodeBytes at h
  cases hf : findByte buf chrColon pos with
  | error e => simp [hf, bind, Except.bind] at h
  | ok i =>
    obtain ⟨raw, t, hd, hn, rfl⟩ := findByte_ok hf
    simp only [hf, bind, Except.bind, slice_of_drop hd] at h
    split at h
    · simp [raiseDecode] at h
    · next h1 =>
      split at h
      · simp [raiseDecode] at h
      · next length hv =>
        split at h
        · simp [raiseDecode] at h
        · next hle =>
          have hraw : ∃ rest, raw = b :: rest := by
            have hc := drop_of_getElem? hb
            rw [hd] at hc
            cases raw with
            | nil =>
              have : chrColon = b := (List.cons.inj hc).1
              subst this
              exact absurd hdig (by decide)
            | cons c rest => exact ⟨rest, by rw [(List.cons.inj hc).1]⟩
          obtain ⟨rest, rfl⟩ := hraw
          obtain ⟨n, rfl⟩ := Int.eq_ofNat_of_zero_le (pyInt_nonneg hdig hv)
          simp only [Except.ok.injEq, Prod.mk.injEq] at h
          have hstop : (((pos + (b :: rest).length + 1 : ℕ) : ℤ) + (n : ℤ)).toNat =
              pos + (b :: rest).length + 1 + n := by omega
          have hdrop : buf.drop (pos + (b :: rest).length + 1) = t := by
            have := drop_add_of_drop (w := (b :: rest) ++ [chrColon]) (t := t) (i := pos)
              (by simpa using hd)
            simpa [Nat.add_assoc] using this
          have hpos : pos ≤ buf.length := by
            have := (List.getElem?_eq_some_iff.mp hb).1
            omega
          have hlen : n ≤ t.length := by
            have := length_of_drop hd hpos
            simp only [List.length_cons] at this hle ⊢
            omega
          rw [hstop, slice_add, hdrop] at h
          obtain ⟨rfl, rfl⟩ := h
          refine ⟨(b :: rest) ++ chrColon :: t.take n, t.drop n, ?_, ?_, ?_⟩
          · simp [hd]
          · refine ⟨b :: rest, rfl, hn, ⟨b, rest, rfl, hdig⟩, h1, ?_⟩
            rw [hv, List.length_take, Nat.min_eq_left hlen]
          · simp [Nat.min_eq_left hlen]
            omega

theorem decodeBytes_of_text {buf w t data : Bytes} {pos : ℕ} (hd : buf.drop pos = w ++ t)
    (hw : StringText maxDigits w data) (hpos : pos ≤ buf.length) :
    decodeBytes maxDigits buf pos = .ok (data, pos + w.length) := by
  obtain ⟨raw, rfl, hl⟩ := hw
  have hd' : buf.drop pos = raw ++ chrColon :: (data ++ t) := by simpa using hd
  have hdrop : buf.drop (pos + raw.length + 1) = data ++ t := by
    have := drop_add_of_drop (w := raw ++ [chrColon]) (t := data ++ t) (i := pos)
      (by simpa using hd')
    simpa [Nat.add_assoc] using this
  have hlen := length_of_drop hd' hpos
  have hstop : ((pos + raw.length + 1 : ℕ) : ℤ) + (data.length : ℤ) =
      ((pos + raw.length + 1 + data.length : ℕ) : ℤ) := by omega
  have hle : ¬ (((pos + raw.length + 1 + data.length : ℕ) : ℤ) > (buf.length : ℤ)) := by
    simp only [List.length_cons, List.length_append] at hlen
    omega
  simp only [decodeBytes, findByte_of_drop hd' hl.no_colon, bind, Except.bind, slice_of_drop hd',
    if_neg hl.no_leading_zero, hl.value_eq, hstop, if_neg hle, Int.toNat_natCast,
    slice_of_drop hdrop]
  simp only [List.length_append, List.length_cons]
  congr 2
  omega

section
variable {P : Bytes → BencodeValue → Prop} {item : ℕ → Outcome (BencodeValue × ℕ)} {buf : Bytes}

/-- What a successful call of `item` says about the text at `pos`. -/
def Sound (P : Bytes → BencodeValue → Prop) (item : ℕ → Outcome (BencodeValue × ℕ))
    (buf : Bytes) : Prop :=
  ∀ pos v q, item pos = .ok (v, q) →
    pos ≤ buf.length ∧ ∃ w t, buf.drop pos = w ++ t ∧ P w v ∧ q = pos + w.length

def Complete (P : Bytes → BencodeValue → Prop) (item : ℕ → Outcome (BencodeValue × ℕ))
    (buf : Bytes) : Prop :=
  ∀ pos w t v, pos ≤ buf.length → buf.drop pos = w ++ t → P w v → item pos = .ok (v, pos + w.length)

theorem decodeListLoop_ok (hs : Sound P item buf) {fuel pos q : ℕ} {items vs : List BencodeValue}
    (h : decodeListLoop item buf fuel pos items = .ok (vs, q)) :
    ∃ ws t es, buf.drop pos = ws ++ chrE :: t ∧ Items P ws es ∧ vs = items ++ es ∧
      q = pos + ws.length + 1 := by
  induction fuel generalizing pos items with
  | zero => simp [decodeListLoop] at h
  | succ fuel ih =>
    rw [decodeListLoop] at h
    split at h
    · simp [raiseDecode] at h
    · next b hb =>
      split at h
      · next he =>
        subst he
        simp only [Except.ok.injEq, Prod.mk.injEq] at h
        obtain ⟨rfl, rfl⟩ := h
        exact ⟨[], buf.drop (pos + 1), [], drop_of_getElem? hb, .nil, by simp, rfl⟩
      · cases hi : item pos with
        | error e => simp [hi, bind, Except.bind] at h
        | ok r =>
          obtain ⟨v, q'⟩ := r
          simp only [hi, bind, Except.bind] at h
          obtain ⟨hpos, w, t, hd, hw, rfl⟩ := hs pos v q' hi
          obtain ⟨ws, t', es, hd', hes, rfl, rfl⟩ := ih h
          rw [drop_add_of_drop hd] at hd'
          refine ⟨w ++ ws, t', v :: es, ?_, .cons hw hes, by simp, ?_⟩
          · rw [hd, hd', List.append_assoc]
          · simp only [List.length_append]
            omega

theorem decodeListLoop_of_items (hc : Complete P item buf)
    (hhead : ∀ w v, P w v → ∃ b rest, w = b :: rest ∧ b ≠ chrE) {ws t : Bytes}
    {es : List BencodeValue} (hes : Items P ws es) {fuel pos : ℕ} {items : List BencodeValue}
    (hpos : pos ≤ buf.length) (hd : buf.drop pos = ws ++ chrE :: t) (hf : ws.length < fuel) :
    decodeListLoop item buf fuel pos items = .ok (items ++ es, pos + ws.length + 1) := by
  induction hes generalizing fuel pos items with
  | nil =>
    obtain ⟨fuel, rfl⟩ := Nat.exists_eq_succ_of_ne_zero (Nat.ne_of_gt hf)
    simp [decodeListLoop, getElem?_of_drop hd]
  | @cons w ws v es hw _ ih =>
    obtain ⟨fuel, rfl⟩ := Nat.exists_eq_succ_of_ne_zero (Nat.ne_of_gt (Nat.zero_lt_of_lt hf))
    obtain ⟨b, rest, rfl, hb⟩ := hhead w v hw
    have hd' : buf.drop pos = (b :: rest) ++ (ws ++ chrE :: t) := by simpa using hd
    have hlen := length_of_drop hd' hpos
    have hbuf : buf[pos]? = some b := getElem?_of_drop hd'
    simp only [decodeListLoop, hbuf, if_neg hb, hc pos _ _ v hpos hd' hw, bind, Except.bind]
    rw [ih (by omega) (drop_add_of_drop hd') (by simp at hf; omega), List.append_assoc,
      List.length_append]
    congr 2
    omega

theorem setItem_of_lt {result : List (Bytes × BencodeValue)} {key : Bytes} {value : BencodeValue}
    (h : ∀ e ∈ result, e.1 < key) : setItem result key value = result ++ [(key, value)] := by
  have hany : result.any (fun e => e.1 == key) = false := by
    simp only [List.any_eq_false, beq_iff_eq]
    intro e he heq
    exact List.lt_irrefl key (by simpa [heq] using h e he)
  simp [setItem, hany]

def KeysBelow (prev : Option Bytes) (result : List (Bytes × BencodeValue)) : Prop :=
  ∀ e ∈ result, ∃ p ∈ prev, e.1 ≤ p

theorem KeysBelow.lt {prev : Option Bytes} {result : List (Bytes × BencodeValue)} {key : Bytes}
    (h : KeysBelow prev result) (hk : ∀ p ∈ prev, p < key) : ∀ e ∈ result, e.1 < key := by
  intro e he
  obtain ⟨p, hp, hle⟩ := h e he
  exact List.lt_of_le_of_lt hle (hk p hp)

theorem KeysBelow.push {prev : Option Bytes} {result : List (Bytes × BencodeValue)} {key : Bytes}
    {value : BencodeValue} (h : KeysBelow prev result) (hk : ∀ p ∈ prev, p < key) :
    KeysBelow (some key) (result ++ [(key, value)]) := by
  intro e he
  rcases List.mem_append.mp he with he | he
  · exact ⟨key, rfl, List.le_of_lt (h.lt hk e he)⟩
  · rw [List.mem_singleton] at he
    subst he
    exact ⟨key, rfl, List.le_refl key⟩

/-- One pass of the loop of `_decode_dict` behind the end check, for any previous key. -/
theorem decodeDictLoop_succ {fuel pos : ℕ} {prev : Option Bytes}
    {result : List (Bytes × BencodeValue)} {b : UInt8} (hb : buf[pos]? = some b) (he : b ≠ chrE)
    (hdig : isDigit b = true) :
    decodeDictLoop maxDigits item buf (fuel + 1) pos prev result =
      (decodeBytes maxDigits buf pos).bind fun r =>
        match prev.filter (fun p => decide (r.1 ≤ p)) with
        | some p => raiseDecode (.keysOutOfOrder p r.1)
        | none => (item r.2).bind fun s =>
          decodeDictLoop maxDigits item buf fuel s.2 (some r.1) (setItem result r.1 s.1) := by
  rw [decodeDictLoop]
  simp only [hb, if_neg he, hdig, bind, Bool.true_eq_false, if_false]
  congr 1
  funext r
  cases prev with
  | none => rfl
  | some p =>
    by_cases hle : r.1 ≤ p
    · simp [hle, Option.filter]
    · simp [hle, Option.filter]

theorem filter_keys_none {prev : Option Bytes} {key : Bytes} :
    prev.filter (fun p => decide (key ≤ p)) = none ↔ ∀ p ∈ prev, p < key := by
  cases prev with
  | none => simp
  | some p =>
    simp only [Option.filter_eq_none_iff, Option.mem_def, decide_eq_true_eq]
    constructor
    · intro h q hq
      exact List.not_le.mp (h q hq)
    · intro h q hq
      exact List.not_le.mpr (h q hq)

theorem decodeDictLoop_ok (hs : Sound P item buf) {fuel pos q : ℕ} {prev : Option Bytes}
    {result es : List (Bytes × BencodeValue)} (hbelow : KeysBelow prev result)
    (h : decodeDictLoop maxDigits item buf fuel pos prev result = .ok (es, q)) :
    ∃ ws t es', buf.drop pos = ws ++ chrE :: t ∧ Entries P maxDigits prev ws es' ∧
      es = result ++ es' ∧ q = pos + ws.length + 1 := by
  induction fuel generalizing pos prev result with
  | zero => simp [decodeDictLoop] at h
  | succ fuel ih =>
    cases hb : buf[pos]? with
    | none => simp [decodeDictLoop, hb, raiseDecode] at h
    | some b =>
      by_cases he : b = chrE
      · subst he
        simp only [decodeDictLoop, hb, if_true, Except.ok.injEq, Prod.mk.injEq] at h
        obtain ⟨rfl, rfl⟩ := h
        exact ⟨[], buf.drop (pos + 1), [], drop_of_getElem? hb, .nil, by simp, rfl⟩
      · cases hdig : isDigit b with
        | false => simp [decodeDictLoop, hb, he, hdig, raiseDecode] at h
        | true =>
          rw [decodeDictLoop_succ hb he hdig] at h
          cases hk : decodeBytes maxDigits buf pos with
          | error e => simp [hk, Except.bind] at h
          | ok r =>
            obtain ⟨key, q₁⟩ := r
            simp only [hk, Except.bind] at h
            cases hf : prev.filter (fun p => decide (key ≤ p)) with
            | some p => simp [hf, raiseDecode] at h
            | none =>
              have hlt := filter_keys_none.mp hf
              simp only [hf] at h
              cases hi : item q₁ with
              | error e => simp [hi] at h
              | ok r =>
                obtain ⟨v, q₂⟩ := r
                simp only [hi] at h
                obtain ⟨wk, t₁, hd₁, hwk, rfl⟩ := decodeBytes_ok hb hdig hk
                obtain ⟨-, w, t₂, hd₂, hw, rfl⟩ := hs _ v q₂ hi
                rw [setItem_of_lt (hbelow.lt hlt)] at h
                obtain ⟨ws, t₃, es', hd₃, hes, rfl, rfl⟩ := ih (hbelow.push hlt) h
                rw [drop_add_of_drop hd₁] at hd₂
                have hd₂' : buf.drop (pos + wk.length) = w ++ t₂ := by
                  rw [drop_add_of_drop hd₁, hd₂]
                rw [drop_add_of_drop hd₂'] at hd₃
                refine ⟨wk ++ (w ++ ws), t₃, (key, v) :: es', ?_, .cons hwk hlt hw hes, by simp, ?_⟩
                · rw [hd₁, hd₂, hd₃]
                  simp
                · simp only [List.length_append]
                  omega

theorem decodeDictLoop_of_entries (hc : Complete P item buf) {prev : Option Bytes} {ws t : Bytes}
    {es : List (Bytes × BencodeValue)} (hes : Entries P maxDigits prev ws es) {fuel pos : ℕ}
    {result : List (Bytes × BencodeValue)} (hbelow : KeysBelow prev result)
    (hpos : pos ≤ buf.length) (hd : buf.drop pos = ws ++ chrE :: t) (hf : ws.length < fuel) :
    decodeDictLoop maxDigits item buf fuel pos prev result =
      .ok (result ++ es, pos + ws.length + 1) := by
  induction hes generalizing fuel pos result with
  | nil =>
    obtain ⟨fuel, rfl⟩ := Nat.exists_eq_succ_of_ne_zero (Nat.ne_of_gt hf)
    simp [decodeDictLoop, getElem?_of_drop hd]
  | @cons prev wk k w v ws es hwk hlt hw _ ih =>
    obtain ⟨fuel, rfl⟩ := Nat.exists_eq_succ_of_ne_zero (Nat.ne_of_gt (Nat.zero_lt_of_lt hf))
    have hd₁ : buf.drop pos = wk ++ (w ++ (ws ++ chrE :: t)) := by simpa using hd
    have hlen₁ := length_of_drop hd₁ hpos
    have hd₂ := drop_add_of_drop hd₁
    have hlen₂ := length_of_drop hd₂ (by omega)
    have hd₃ := drop_add_of_drop hd₂
    obtain ⟨b, rest, hbw, hdig⟩ := hwk.head
    have hb : buf[pos]? = some b := getElem?_of_drop (t := rest ++ (w ++ (ws ++ chrE :: t)))
      (by rw [hd₁, hbw]; rfl)
    rw [decodeDictLoop_succ hb (digit_ne hdig).1 hdig, decodeBytes_of_text hd₁ hwk hpos]
    have hwkpos : 0 < wk.length := by
      rw [hbw]
      exact Nat.succ_pos _
    simp only [Except.bind, filter_keys_none.mpr hlt, hc _ _ _ v (by omega) hd₂ hw,
      setItem_of_lt (hbelow.lt hlt)]
    rw [ih (hbelow.push hlt) (by omega) hd₃ (by simp at hf; omega)]
    simp only [List.append_assoc, List.cons_append, List.nil_append, List.length_append]
    congr 2
    omega

end

theorem decodeAny_sound (buf : Bytes) (depth : ℕ) :
    Sound (Denotes maxDigits depth) (decodeAny maxDigits buf depth) buf := by
  induction depth with
  | zero =>
    intro pos v q h
    simp [decodeAny] at h
  | succ depth ih =>
    intro pos v q h
    rw [decodeAny] at h
    cases hb : buf[pos]? with
    | none => simp [hb, raiseDecode] at h
    | some lead =>
      have hpos : pos ≤ buf.length := (List.getElem?_eq_some_iff.mp hb).1.le
      have hdrop := drop_of_getElem? hb
      refine ⟨hpos, ?_⟩
      simp only [hb] at h
      split at h
      · next hl =>
        subst hl
        cases hi : decodeInt maxDigits buf pos with
        | error e => simp [hi, Except.map] at h
        | ok r =>
          obtain ⟨value, q'⟩ := r
          simp only [hi, Except.map, Except.ok.injEq, Prod.mk.injEq] at h
          obtain ⟨rfl, rfl⟩ := h
          obtain ⟨raw, t, hd, hr, rfl⟩ := decodeInt_ok hi
          refine ⟨chrI :: (raw ++ [chrE]), t, ?_, ⟨raw, rfl, hr⟩, ?_⟩
          · rw [hdrop, hd]
            simp
          · simp only [List.length_cons, List.length_append, List.length_nil]
            omega
      · split at h
        · next hl =>
          subst hl
          cases hi : decodeList (decodeAny maxDigits buf depth) buf pos with
          | error e => simp [hi, Except.map] at h
          | ok r =>
            obtain ⟨items, q'⟩ := r
            simp only [hi, Except.map, Except.ok.injEq, Prod.mk.injEq] at h
            obtain ⟨rfl, rfl⟩ := h
            obtain ⟨ws, t, es, hd, hes, hv, rfl⟩ := decodeListLoop_ok ih hi
            rw [List.nil_append] at hv
            subst hv
            refine ⟨chrL :: (ws ++ [chrE]), t, ?_, ⟨ws, rfl, hes⟩, ?_⟩
            · rw [hdrop, hd]
              simp
            · simp only [List.length_cons, List.length_append, List.length_nil]
              omega
        · split at h
          · next hl =>
            subst hl
            cases hi : decodeDict maxDigits (decodeAny maxDigits buf depth) buf pos with
            | error e => simp [hi, Except.map] at h
            | ok r =>
              obtain ⟨items, q'⟩ := r
              simp only [hi, Except.map, Except.ok.injEq, Prod.mk.injEq] at h
              obtain ⟨rfl, rfl⟩ := h
              obtain ⟨ws, t, es, hd, hes, hv, rfl⟩ :=
                decodeDictLoop_ok ih (by intro e he; exact absurd he List.not_mem_nil) hi
              rw [List.nil_append] at hv
              subst hv
              refine ⟨chrD :: (ws ++ [chrE]), t, ?_, ⟨ws, rfl, hes⟩, ?_⟩
              · rw [hdrop, hd]
                simp
              · simp only [List.length_cons, List.length_append, List.length_nil]
                omega
          · split at h
            · next hdig =>
              cases hi : decodeBytes maxDigits buf pos with
              | error e => simp [hi, Except.map] at h
              | ok r =>
                obtain ⟨data, q'⟩ := r
                simp only [hi, Except.map, Except.ok.injEq, Prod.mk.injEq] at h
                obtain ⟨rfl, rfl⟩ := h
                exact decodeBytes_ok hb hdig hi
            · simp [raiseDecode] at h

theorem decodeAny_complete (buf : Bytes) (depth : ℕ) :
    Complete (Denotes maxDigits depth) (decodeAny maxDigits buf depth) buf := by
  induction depth with
  | zero =>
    intro pos w t v _ _ hw
    exact hw.elim
  | succ depth ih =>
    intro pos w t v hpos hd hw
    cases v with
    | int value =>
      obtain ⟨raw, rfl, hr⟩ := hw
      have hd' : buf.drop pos = chrI :: (raw ++ chrE :: t) := by simpa using hd
      have hd₁ : buf.drop (pos + 1) = raw ++ chrE :: t := drop_add_of_drop (w := [chrI]) hd'
      simp only [decodeAny, getElem?_of_drop hd', if_true, decodeInt_of_text hd₁ hr, Except.map,
        List.length_cons, List.length_append, List.length_nil]
      congr 2
      omega
    | bytes data =>
      obtain ⟨b, rest, hbw, hdig⟩ := StringText.head hw
      have hb : buf[pos]? = some b := getElem?_of_drop (t := rest ++ t) (by rw [hd, hbw]; rfl)
      obtain ⟨-, h1, h2, h3⟩ := digit_ne hdig
      simp only [decodeAny, hb, if_neg h1, if_neg h2, if_neg h3, hdig, if_true,
        decodeBytes_of_text hd hw hpos, Except.map]
    | list items =>
      obtain ⟨ws, rfl, hes⟩ := hw
      have hd' : buf.drop pos = chrL :: (ws ++ chrE :: t) := by simpa using hd
      have hd₁ : buf.drop (pos + 1) = ws ++ chrE :: t := drop_add_of_drop (w := [chrL]) hd'
      have hlen := length_of_drop (w := [chrL]) (t := ws ++ chrE :: t) hd' hpos
      simp only [List.length_append, List.length_cons, List.length_nil] at hlen
      have hloop : decodeListLoop _ buf (buf.length + 1) (pos + 1) [] = _ :=
        decodeListLoop_of_items ih (fun _ _ h => h.head) hes (by omega) hd₁ (by omega)
      have hne : chrL ≠ chrI := by decide
      simp only [decodeAny, getElem?_of_drop hd', if_neg hne, if_true, decodeList, hloop,
        Except.map, List.nil_append, List.length_cons, List.length_append, List.length_nil]
      congr 2
      omega
    | dict items =>
      obtain ⟨ws, rfl, hes⟩ := hw
      have hd' : buf.drop pos = chrD :: (ws ++ chrE :: t) := by simpa using hd
      have hd₁ : buf.drop (pos + 1) = ws ++ chrE :: t := drop_add_of_drop (w := [chrD]) hd'
      have hlen := length_of_drop (w := [chrD]) (t := ws ++ chrE :: t) hd' hpos
      simp only [List.length_append, List.length_cons, List.length_nil] at hlen
      have hloop : decodeDictLoop maxDigits _ buf (buf.length + 1) (pos + 1) none [] = _ :=
        decodeDictLoop_of_entries ih hes (by intro e he; exact absurd he List.not_mem_nil)
          (by omega) hd₁ (by omega)
      have hne : chrD ≠ chrI := by decide
      have hne' : chrD ≠ chrL := by decide
      simp only [decodeAny, getElem?_of_drop hd', if_neg hne, if_neg hne', if_true, decodeDict,
        hloop, Except.map, List.nil_append, List.length_cons, List.length_append, List.length_nil]
      congr 2
      omega

/-- The decoder at the end of a prefix `p` returns `v` exactly when a text of `v` follows. -/
theorem decodeAny_iff {depth : ℕ} {p s : Bytes} {v : BencodeValue} {q : ℕ} :
    decodeAny maxDigits (p ++ s) depth p.length = .ok (v, q) ↔
      ∃ w t, s = w ++ t ∧ Denotes maxDigits depth w v ∧ q = p.length + w.length := by
  constructor
  · intro h
    obtain ⟨-, w, t, hd, hw, hq⟩ := decodeAny_sound (p ++ s) depth p.length v q h
    exact ⟨w, t, List.drop_left.symm.trans hd, hw, hq⟩
  · rintro ⟨w, t, rfl, hw, rfl⟩
    exact decodeAny_complete _ depth p.length w t v (by simp) List.drop_left hw

theorem decode_iff {depth : ℕ} {data : Bytes} {v : BencodeValue} :
    decode maxDigits depth data = .ok v ↔ Denotes maxDigits depth data v := by
  have hany : ∀ q, decodeAny maxDigits data depth 0 = .ok (v, q) ↔
      ∃ w t, data = w ++ t ∧ Denotes maxDigits depth w v ∧ q = 0 + w.length :=
    fun q => decodeAny_iff (p := [])
  simp only [Nat.zero_add] at hany
  constructor
  · intro h
    unfold decode at h
    split at h
    · simp [raiseDecode] at h
    · cases hi : decodeAny maxDigits data depth 0 with
      | error e => simp [hi, bind, Except.bind] at h
      | ok r =>
        obtain ⟨v', q⟩ := r
        simp only [hi, bind, Except.bind] at h
        split at h
        · simp [raiseDecode] at h
        · next hq =>
          obtain rfl := Except.ok.inj h
          obtain ⟨w, t, rfl, hw, rfl⟩ := (hany q).mp hi
          have ht : t = [] := by
            simp only [List.length_append] at hq
            exact List.length_eq_zero_iff.mp (by omega)
          rwa [ht, List.append_nil]
  · intro hw
    have hne : data ≠ [] := by
      rintro rfl
      exact absurd hw.length_pos (by simp)
    have hi := (hany data.length).mpr ⟨data, [], by simp, hw, rfl⟩
    simp [decode, hne, hi, bind, Except.bind]

end BencodeGrammar
