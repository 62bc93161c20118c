import Aiobt.BencodeGrammar

/-! # Encoding, then decoding

The encoder prints texts of the grammar, so the decoder reads them back wherever they stand.
A `dict` is printed in key order; `canon` puts every `dict` of a value into that order, and
`pyEq` is Python's `==`, which ignores it. -/
namespace BencodeRoundTrip

open ByteStrings PyDecimal BencodeCodec BencodeGrammar

mutual

/-- Calls of `_decode_any` that are open at once while the text of a value is decoded. -/
def nesting : BencodeValue → ℕ
  | .int _ => 1
  | .bytes _ => 1
  | .list items => nestingList items + 1
  | .dict items => nestingItems items + 1

def nestingList : List BencodeValue → ℕ
  | [] => 0
  | item :: rest => max (nesting item) (nestingList rest)

def nestingItems : List (Bytes × BencodeValue) → ℕ
  | [] => 0
  | (_, value) :: rest => max (nesting value) (nestingItems rest)

end

mutual

/-- Integers within the digit limit, byte strings no longer than `sys.maxsize`, and no key of a
`dict` twice. -/
def Encodable (maxDigits : ℕ) : BencodeValue → Prop
  | .int value => WithinLimit maxDigits (digitCount value)
  | .bytes value => value.length < 2 ^ 63
  | .list items => EncodableList maxDigits items
  | .dict items => UniqueKeys items ∧ EncodableItems maxDigits items

def EncodableList (maxDigits : ℕ) : List BencodeValue → Prop
  | [] => True
  | item :: rest => Encodable maxDigits item ∧ EncodableList maxDigits rest

def EncodableItems (maxDigits : ℕ) : List (Bytes × BencodeValue) → Prop
  | [] => True
  | (key, value) :: rest =>
    key.length < 2 ^ 63 ∧ Encodable maxDigits value ∧ EncodableItems maxDigits rest

end

mutual

def canon : BencodeValue → BencodeValue
  | .int value => .int value
  | .bytes value => .bytes value
  | .list items => .list (canonList items)
  | .dict items => .dict (sortedItems (canonItems items))

def canonList : List BencodeValue → List BencodeValue
  | [] => []
  | item :: rest => canon item :: canonList rest

def canonItems : List (Bytes × BencodeValue) → List (Bytes × BencodeValue)
  | [] => []
  | (key, value) :: rest => (key, canon value) :: canonItems rest

end

mutual

/-- Python's `==`: a `dict` is compared by its length and by looking up each key. -/
def pyEq : BencodeValue → BencodeValue → Bool
  | .int a, .int b => a == b
  | .bytes a, .bytes b => a == b
  | .list a, .list b => pyEqList a b
  | .dict a, .dict b => a.length == b.length && pyEqItems a b
  | _, _ => false

def pyEqList : List BencodeValue → List BencodeValue → Bool
  | [], [] => true
  | a :: as, b :: bs => pyEq a b && pyEqList as bs
  | _, _ => false

def pyEqItems : List (Bytes × BencodeValue) → List (Bytes × BencodeValue) → Bool
  | [], _ => true
  | (key, a) :: rest, items =>
    (match items.lookup key with
      | some b => pyEq a b
      | none => false) && pyEqItems rest items

end

variable {maxDigits : ℕ}

theorem canonItems_eq_map (items : List (Bytes × BencodeValue)) :
    canonItems items = items.map fun e => (e.1, canon e.2) := by
  induction items with
  | nil => rfl
  | cons e rest ih => rw [canonItems, ih, List.map_cons]

theorem canonList_eq_map (items : List BencodeValue) : canonList items = items.map canon := by
  induction items with
  | nil => rfl
  | cons item rest ih => rw [canonList, ih, List.map_cons]

theorem canonItems_keys (items : List (Bytes × BencodeValue)) :
    (canonItems items).map Prod.fst = items.map Prod.fst := by
  rw [canonItems_eq_map, List.map_map]
  rfl

theorem nesting_of_mem_list {items : List BencodeValue} {item : BencodeValue} (h : item ∈ items) :
    nesting item ≤ nestingList items := by
  induction items with
  | nil => cases h
  | cons a rest ih =>
    rw [nestingList]
    rcases List.mem_cons.mp h with rfl | h
    · exact le_max_left _ _
    · exact (ih h).trans (le_max_right _ _)

theorem nesting_of_mem_items {items : List (Bytes × BencodeValue)} {e : Bytes × BencodeValue}
    (h : e ∈ items) : nesting e.2 ≤ nestingItems items := by
  induction items with
  | nil => cases h
  | cons a rest ih =>
    rw [nestingItems]
    rcases List.mem_cons.mp h with rfl | h
    · exact le_max_left _ _
    · exact (ih h).trans (le_max_right _ _)

theorem Encodable.of_mem_list {items : List BencodeValue} {item : BencodeValue}
    (h : EncodableList maxDigits items) (hm : item ∈ items) : Encodable maxDigits item := by
  induction items with
  | nil => cases hm
  | cons a rest ih =>
    rcases List.mem_cons.mp hm with rfl | hm
    · exact h.1
    · exact ih h.2 hm

theorem Encodable.of_mem_items {items : List (Bytes × BencodeValue)} {e : Bytes × BencodeValue}
    (h : EncodableItems maxDigits items) (hm : e ∈ items) : Encodable maxDigits e.2 := by
  induction items with
  | nil => cases hm
  | cons a rest ih =>
    rcases List.mem_cons.mp hm with rfl | hm
    · exact h.2.1
    · exact ih h.2.2 hm

theorem natText_no_delimiter {n : ℕ} {b : UInt8} (hb : isDigit b = false) : b ∉ natText n := by
  intro h
  simp [natText_isDigit h] at hb

theorem natText_no_leading_zero {n : ℕ} :
    ¬ (1 < (natText n).length ∧ (natText n).take 1 = [48]) := by
  rintro ⟨hl, ht⟩
  cases h : natText n with
  | nil => exact natText_ne_nil n h
  | cons b rest =>
    rw [h] at ht
    obtain rfl : b = 48 := (List.cons.inj ht).1
    by_cases hn : n = 0
    · subst hn
      exact absurd hl (by decide)
    · exact natText_head hn h

theorem lengthText_natText {n : ℕ} (h : WithinLimit maxDigits (natText n).length) :
    LengthText maxDigits (natText n) n := by
  refine ⟨natText_no_delimiter (by decide), ?_, natText_no_leading_zero, pyInt_natText h⟩
  obtain ⟨b, rest, hb⟩ := List.exists_cons_of_ne_nil (natText_ne_nil n)
  exact ⟨b, rest, hb, natText_isDigit (n := n) (by rw [hb]; exact List.mem_cons_self ..)⟩

theorem intText_intText {z : ℤ} (h : WithinLimit maxDigits (digitCount z)) :
    IntText maxDigits (intText z) z := by
  have hv := pyInt_intText h
  rcases lt_or_ge z 0 with hz | hz
  · -- a minus sign, then the digits of a positive number
    obtain ⟨n, rfl⟩ : ∃ n : ℕ, z = -(n : ℤ) := ⟨z.natAbs, by omega⟩
    have hn : n ≠ 0 := by omega
    rw [intText_neg hn] at hv ⊢
    refine ⟨?_, by simp, ?_, ?_, ?_, hv⟩
    · simp only [List.mem_cons, not_or]
      exact ⟨by decide, natText_no_delimiter (by decide)⟩
    · intro heq
      exact natText_head hn (List.cons.inj heq).2
    · rintro ⟨-, ht⟩
      exact absurd (List.cons.inj ht).1 (by decide)
    · rintro ⟨-, ht⟩
      obtain ⟨b, rest, hb⟩ := List.exists_cons_of_ne_nil (natText_ne_nil n)
      rw [hb] at ht
      obtain rfl : b = 48 := by simpa using ht
      exact natText_head hn hb
  · obtain ⟨n, rfl⟩ := Int.eq_ofNat_of_zero_le hz
    have hd : ∀ b ∈ natText n, isDigit b = true := fun _ => natText_isDigit
    rw [intText_ofNat] at hv ⊢
    refine ⟨natText_no_delimiter (by decide), natText_ne_nil n, ?_, natText_no_leading_zero, ?_, hv⟩
    · intro heq
      rw [heq] at hd
      exact absurd (hd 45 (by simp)) (by decide)
    · rintro ⟨-, ht⟩
      have h45 : (45 : UInt8) ∈ natText n := List.mem_of_mem_take (by rw [ht]; simp)
      exact absurd (hd 45 h45) (by decide)

theorem withinLimit_of_lt (hlim : maxDigits = 0 ∨ 640 ≤ maxDigits) {n : ℕ} (h : n < 10 ^ 100) :
    WithinLimit maxDigits (natText n).length := by
  rcases hlim with h0 | h640
  · exact Or.inl h0
  · refine Or.inr (le_trans ?_ h640)
    unfold natText
    split
    · simp
    · have : (Nat.digits 10 n).length ≤ 100 := (Nat.digits_length_le_iff (by decide) n).mpr h
      simp only [List.length_map, List.length_reverse]
      omega

theorem withinLimit_length (hlim : maxDigits = 0 ∨ 640 ≤ maxDigits) {n : ℕ} (h : n < 2 ^ 63) :
    WithinLimit maxDigits (natText n).length :=
  withinLimit_of_lt hlim (lt_trans h (by norm_num))

theorem encodeBytes_text (hlim : maxDigits = 0 ∨ 640 ≤ maxDigits) {data : Bytes}
    (h : data.length < 2 ^ 63) :
    ∃ w, encodeBytes maxDigits data = .ok w ∧ StringText maxDigits w data := by
  have hl := withinLimit_length hlim h
  have hs : strInt maxDigits data.length = .ok (natText data.length) := by
    rw [strInt, if_pos (by simpa [digitCount] using hl), intText_ofNat]
  refine ⟨natText data.length ++ chrColon :: data, ?_, _, rfl, lengthText_natText hl⟩
  simp [encodeBytes, hs, bind, Except.bind]

/-- What the encoder needs to know about the values inside a list or a `dict`. -/
def Prints (maxDigits depth : ℕ) (v : BencodeValue) : Prop :=
  ∃ w, encodeAny maxDigits v = .ok w ∧ Denotes maxDigits depth w (canon v)

theorem encodeList_items {depth : ℕ} {items : List BencodeValue}
    (h : ∀ v ∈ items, Prints maxDigits depth v) :
    ∃ ws, encodeList maxDigits items = .ok ws ∧
      Items (Denotes maxDigits depth) ws (canonList items) := by
  induction items with
  | nil => exact ⟨[], rfl, .nil⟩
  | cons v rest ih =>
    obtain ⟨w, hw, hd⟩ := h v (List.mem_cons_self ..)
    obtain ⟨ws, hws, hi⟩ := ih fun u hu => h u (List.mem_cons_of_mem _ hu)
    refine ⟨w ++ ws, ?_, .cons hd hi⟩
    simp [encodeList, hw, hws, bind, Except.bind]

/-- The encoded values and the canonical values of a `dict`, side by side under their keys. -/
theorem encodeValues_pairs {depth : ℕ} {items : List (Bytes × BencodeValue)}
    (h : ∀ e ∈ items, Prints maxDigits depth e.2) :
    ∃ pairs : List (Bytes × (Bytes × BencodeValue)),
      encodeValues maxDigits items = .ok (pairs.map fun e => (e.1, e.2.1)) ∧
      canonItems items = pairs.map (fun e => (e.1, e.2.2)) ∧
      ∀ e ∈ pairs, Denotes maxDigits depth e.2.1 e.2.2 := by
  induction items with
  | nil => exact ⟨[], rfl, rfl, by simp⟩
  | cons e rest ih =>
    obtain ⟨w, hw, hd⟩ := h e (List.mem_cons_self ..)
    obtain ⟨pairs, hp, hc, hall⟩ := ih fun u hu => h u (List.mem_cons_of_mem _ hu)
    refine ⟨(e.1, (w, canon e.2)) :: pairs, ?_, ?_, ?_⟩
    · simp [encodeValues, hw, hp, bind, Except.bind]
    · simp [canonItems, hc]
    · intro u hu
      rcases List.mem_cons.mp hu with rfl | hu
      · exact hd
      · exact hall u hu

theorem encodeItems_entries (hlim : maxDigits = 0 ∨ 640 ≤ maxDigits) {depth : ℕ}
    (prev : Option Bytes) {pairs : List (Bytes × (Bytes × BencodeValue))} (hasc : Ascending pairs)
    (hprev : ∀ p ∈ prev, ∀ e ∈ pairs, p < e.1) (hkey : ∀ e ∈ pairs, e.1.length < 2 ^ 63)
    (hd : ∀ e ∈ pairs, Denotes maxDigits depth e.2.1 e.2.2) :
    ∃ ws, encodeItems maxDigits (pairs.map fun e => (e.1, e.2.1)) = .ok ws ∧
      Entries (Denotes maxDigits depth) maxDigits prev ws (pairs.map fun e => (e.1, e.2.2)) := by
  induction pairs generalizing prev with
  | nil => exact ⟨[], rfl, .nil⟩
  | cons e rest ih =>
    have hasc' := List.pairwise_cons.mp hasc
    obtain ⟨ws, hws, hes⟩ := ih (some e.1) hasc'.2
      (by rintro p ⟨⟩; exact hasc'.1)
      (fun u hu => hkey u (List.mem_cons_of_mem _ hu)) (fun u hu => hd u (List.mem_cons_of_mem _ hu))
    obtain ⟨wk, hwk, hst⟩ := encodeBytes_text hlim (hkey e (List.mem_cons_self ..))
    refine ⟨wk ++ (e.2.1 ++ ws), ?_, .cons hst (fun p hp => hprev p hp e (List.mem_cons_self ..))
      (hd e (List.mem_cons_self ..)) hes⟩
    simp [encodeItems, hwk, hws, bind, Except.bind]

theorem EncodableItems.key {items : List (Bytes × BencodeValue)} {e : Bytes × BencodeValue}
    (h : EncodableItems maxDigits items) (hm : e ∈ items) : e.1.length < 2 ^ 63 := by
  induction items with
  | nil => cases hm
  | cons a rest ih =>
    rcases List.mem_cons.mp hm with rfl | hm
    · exact h.1
    · exact ih h.2.2 hm

theorem encodeAny_prints (hlim : maxDigits = 0 ∨ 640 ≤ maxDigits) {depth : ℕ} {v : BencodeValue}
    (hv : Encodable maxDigits v) (hn : nesting v ≤ depth) : Prints maxDigits depth v := by
  induction depth generalizing v with
  | zero => cases v <;> simp [nesting] at hn
  | succ depth ih =>
    cases v with
    | int value =>
      refine ⟨chrI :: (intText value ++ [chrE]), ?_, _, rfl, intText_intText hv⟩
      have hs : strInt maxDigits value = .ok (intText value) := if_pos hv
      simp [encodeAny, encodeInt, hs, bind, Except.bind]
    | bytes data => exact encodeBytes_text hlim hv
    | list items =>
      rw [nesting] at hn
      have hitem : ∀ u ∈ items, Prints maxDigits depth u := fun u hu =>
        ih (Encodable.of_mem_list hv hu) ((nesting_of_mem_list hu).trans (by omega))
      obtain ⟨ws, hws, hi⟩ := encodeList_items hitem
      refine ⟨chrL :: (ws ++ [chrE]), ?_, ws, rfl, hi⟩
      simp [encodeAny, hws, bind, Except.bind]
    | dict items =>
      rw [nesting] at hn
      obtain ⟨huniq, hitems⟩ := hv
      have hvalue : ∀ e ∈ items, Prints maxDigits depth e.2 := fun e he =>
        ih (Encodable.of_mem_items hitems he) ((nesting_of_mem_items he).trans (by omega))
      obtain ⟨pairs, hp, hc, hd⟩ := encodeValues_pairs hvalue
      have hkeys : pairs.map Prod.fst = items.map Prod.fst := by
        rw [← canonItems_keys, hc, List.map_map]
        rfl
      have hu : UniqueKeys pairs := by
        rw [UniqueKeys, hkeys]
        exact huniq
      have hmem : ∀ e, e ∈ sortedItems pairs → e ∈ pairs :=
        fun e he => (sortedItems_perm pairs).mem_iff.mp he
      have hkey : ∀ e ∈ sortedItems pairs, e.1.length < 2 ^ 63 := by
        intro e he
        have : e.1 ∈ items.map Prod.fst := by
          rw [← hkeys]
          exact List.mem_map_of_mem (hmem e he)
        obtain ⟨u, hu, heq⟩ := List.mem_map.mp this
        rw [← heq]
        exact hitems.key hu
      obtain ⟨ws, hws, hes⟩ := encodeItems_entries hlim none (sortedItems_ascending hu)
        (by simp) hkey (fun e he => hd e (hmem e he))
      refine ⟨chrD :: (ws ++ [chrE]), ?_, ws, rfl, ?_⟩
      · simp [encodeAny, hp, sortedItems_map (fun p : Bytes × BencodeValue => p.1), hws, bind,
          Except.bind]
      · rw [hc, sortedItems_map (fun p : Bytes × BencodeValue => p.2)]
        exact hes

theorem canon_canon (v : BencodeValue) : canon (canon v) = canon v := by
  have main : ∀ n, ∀ v, nesting v ≤ n → canon (canon v) = canon v := by
    intro n
    induction n with
    | zero =>
      intro v hn
      cases v <;> simp [nesting] at hn
    | succ n ih =>
      intro v hn
      cases v with
      | int value => rfl
      | bytes value => rfl
      | list items =>
        rw [nesting] at hn
        simp only [canon, canonList_eq_map, List.map_map, BencodeValue.list.injEq]
        apply List.map_congr_left
        intro u hu
        exact ih u ((nesting_of_mem_list hu).trans (by omega))
      | dict items =>
        rw [nesting] at hn
        have hfix : canonItems (sortedItems (canonItems items)) = sortedItems (canonItems items) := by
          rw [canonItems_eq_map (sortedItems _)]
          conv_rhs => rw [← List.map_id (sortedItems (canonItems items))]
          apply List.map_congr_left
          intro e he
          have hm := (sortedItems_perm _).mem_iff.mp he
          rw [canonItems_eq_map] at hm
          obtain ⟨u, hu, rfl⟩ := List.mem_map.mp hm
          simp [ih u.2 ((nesting_of_mem_items hu).trans (by omega))]
        rw [canon, canon, hfix, sortedItems_idem]
  exact main (nesting v) v le_rfl

/-- Values with the same canonical form are equal in Python, whatever the order of their keys. -/
theorem pyEq_of_canon {v w : BencodeValue} (hw : Encodable maxDigits w) (h : canon v = canon w) :
    pyEq v w = true := by
  have main : ∀ n, ∀ v w, nesting w ≤ n → Encodable maxDigits w → canon v = canon w →
      pyEq v w = true := by
    intro n
    induction n with
    | zero =>
      intro v w hn
      cases w <;> simp [nesting] at hn
    | succ n ih =>
      intro v w hn hw h
      cases w with
      | int b =>
        cases v <;> simp [canon] at h
        simp [pyEq, h]
      | bytes b =>
        cases v <;> simp [canon] at h
        simp [pyEq, h]
      | list b =>
        cases v with
        | list a =>
          rw [nesting] at hn
          simp only [canon, canonList_eq_map, BencodeValue.list.injEq] at h
          have hb : ∀ u ∈ b, nesting u ≤ n ∧ Encodable maxDigits u := fun u hu =>
            ⟨(nesting_of_mem_list hu).trans (by omega), Encodable.of_mem_list hw hu⟩
          clear hn hw
          rw [pyEq]
          induction b generalizing a with
          | nil =>
            obtain rfl : a = [] := by simpa using h
            rfl
          | cons y ys ihb =>
            cases a with
            | nil => simp at h
            | cons x xs =>
              rw [List.map_cons, List.map_cons, List.cons.injEq] at h
              obtain ⟨hn, hy⟩ := hb y (List.mem_cons_self ..)
              rw [pyEqList, ih x y hn hy h.1,
                ihb xs h.2 fun u hu => hb u (List.mem_cons_of_mem _ hu)]
              rfl
        | int a => simp [canon] at h
        | bytes a => simp [canon] at h
        | dict a => simp [canon] at h
      | dict b =>
        cases v with
        | dict a =>
          rw [nesting] at hn
          obtain ⟨huniq, hitems⟩ := hw
          simp only [canon, BencodeValue.dict.injEq] at h
          have hperm : (canonItems a).Perm (canonItems b) :=
            (sortedItems_perm _).symm.trans (h ▸ sortedItems_perm _)
          have hlen : a.length = b.length := by
            have := hperm.length_eq
            simpa [canonItems_eq_map] using this
          have hall : ∀ as, (∀ e ∈ as, e ∈ a) → pyEqItems as b = true := by
            intro as
            induction as with
            | nil => intro _; rfl
            | cons e rest ihr =>
              intro hsub
              have he : (e.1, canon e.2) ∈ canonItems b := by
                apply hperm.mem_iff.mp
                rw [canonItems_eq_map]
                exact List.mem_map_of_mem (f := fun e => (e.1, canon e.2))
                  (hsub e (List.mem_cons_self ..))
              rw [canonItems_eq_map] at he
              obtain ⟨u, hu, heq⟩ := List.mem_map.mp he
              obtain ⟨hk, hv⟩ := Prod.mk.inj heq
              have hlook : b.lookup e.1 = some u.2 := lookup_of_mem huniq (by rw [← hk]; exact hu)
              rw [pyEqItems, hlook, ihr fun x hx => hsub x (List.mem_cons_of_mem _ hx)]
              simp [ih e.2 u.2 ((nesting_of_mem_items hu).trans (by omega))
                (Encodable.of_mem_items hitems hu) hv.symm]
          rw [pyEq, hlen, hall a fun e he => he]
          simp
        | int a => simp [canon] at h
        | bytes a => simp [canon] at h
        | list a => simp [canon] at h
  exact main (nesting w) v w le_rfl hw h

theorem pyEq_canon {v : BencodeValue} (h : Encodable maxDigits v) : pyEq (canon v) v = true :=
  pyEq_of_canon h (canon_canon v)

theorem decodeAllLoop_of_items {depth : ℕ} {buf ws : Bytes} {vs : List BencodeValue}
    (hi : Items (Denotes maxDigits depth) ws vs) {fuel pos : ℕ} {values : List BencodeValue}
    (hpos : pos ≤ buf.length) (hd : buf.drop pos = ws) (hf : ws.length < fuel) :
    decodeAllLoop maxDigits depth buf fuel pos values = .ok (values ++ vs) := by
  induction hi generalizing fuel pos values with
  | nil =>
    obtain ⟨fuel, rfl⟩ := Nat.exists_eq_succ_of_ne_zero (Nat.ne_of_gt hf)
    have hlen : buf.length ≤ pos := List.drop_eq_nil_iff.mp hd
    rw [decodeAllLoop, if_neg (by omega), List.append_nil]
  | @cons w ws v vs hw _ ih =>
    obtain ⟨fuel, rfl⟩ := Nat.exists_eq_succ_of_ne_zero (Nat.ne_of_gt (Nat.zero_lt_of_lt hf))
    have hpos' := hw.length_pos
    have hlen := length_of_drop hd hpos
    simp only [List.length_append] at hf
    rw [decodeAllLoop, if_pos (by omega), decodeAny_complete buf depth pos w ws v hpos hd hw]
    simp only [bind, Except.bind]
    rw [ih (by omega) (drop_add_of_drop hd) (by omega), List.append_assoc, List.singleton_append]

theorem decodeAll_of_items {depth : ℕ} {ws : Bytes} {vs : List BencodeValue}
    (hi : Items (Denotes maxDigits depth) ws vs) : decodeAll maxDigits depth ws = .ok vs :=
  decodeAllLoop_of_items hi (Nat.zero_le _) rfl (Nat.lt_succ_self _)

theorem encode_each {depth : ℕ} {vs : List BencodeValue}
    (h : ∀ v ∈ vs, Prints maxDigits depth v) :
    ∃ texts, vs.mapM (encode maxDigits) = .ok texts ∧
      Items (Denotes maxDigits depth) texts.flatten (vs.map canon) := by
  induction vs with
  | nil => exact ⟨[], rfl, .nil⟩
  | cons v rest ih =>
    obtain ⟨w, hw, hd⟩ := h v (List.mem_cons_self ..)
    obtain ⟨texts, ht, hi⟩ := ih fun u hu => h u (List.mem_cons_of_mem _ hu)
    refine ⟨w :: texts, ?_, .cons hd hi⟩
    have hw' : encode maxDigits v = .ok w := hw
    simp [List.mapM_cons, hw', ht, bind, Except.bind, pure, Except.pure]

theorem encode_in_context (hlim : maxDigits = 0 ∨ 640 ≤ maxDigits) (depth : ℕ) {v : BencodeValue}
    (hv : Encodable maxDigits v) (hn : nesting v ≤ depth) :
    ∃ w, encode maxDigits v = .ok w ∧
      ∀ p t, decodeAny maxDigits (p ++ w ++ t) depth p.length = .ok (canon v, p.length + w.length) := by
  obtain ⟨w, hw, hd⟩ := encodeAny_prints hlim hv hn
  refine ⟨w, hw, ?_⟩
  intro p t
  rw [List.append_assoc, decodeAny_iff]
  exact ⟨w, t, rfl, hd, rfl⟩

/-- Encoded values are read back wherever they start, so no encoding continues another one. -/
theorem encode_prefix_free (hlim : maxDigits = 0 ∨ 640 ≤ maxDigits) {v v' : BencodeValue}
    {w t : Bytes} (hv : Encodable maxDigits v) (hv' : Encodable maxDigits v')
    (hw : encode maxDigits v = .ok w) (hw' : encode maxDigits v' = .ok (w ++ t)) :
    t = [] ∧ canon v = canon v' := by
  obtain ⟨u, hu, hctx⟩ :=
    encode_in_context hlim (max (nesting v) (nesting v')) hv (le_max_left _ _)
  obtain ⟨u', hu', hctx'⟩ :=
    encode_in_context hlim (max (nesting v) (nesting v')) hv' (le_max_right _ _)
  obtain rfl : u = w := Except.ok.inj (hu.symm.trans hw)
  obtain rfl : u' = u ++ t := Except.ok.inj (hu'.symm.trans hw')
  have h := hctx [] t
  have h' := hctx' [] []
  simp only [List.nil_append, List.append_nil] at h h'
  obtain ⟨hc, hl⟩ := Prod.mk.inj (Except.ok.inj (h.symm.trans h'))
  refine ⟨?_, hc⟩
  simp only [List.length_append] at hl
  exact List.length_eq_zero_iff.mp (by omega)

theorem bencode_round_trip (hlim : maxDigits = 0 ∨ 640 ≤ maxDigits) (depth : ℕ) :
    (∀ v, Encodable maxDigits v → nesting v ≤ depth →
      ∃ w r, encode maxDigits v = .ok w ∧ pyEq r v = true ∧
        (∀ p t, decodeAny maxDigits (p ++ w ++ t) depth p.length = .ok (r, p.length + w.length)) ∧
        decode maxDigits depth w = .ok r) ∧
    (∀ vs, (∀ v ∈ vs, Encodable maxDigits v ∧ nesting v ≤ depth) →
      ∃ texts rs, vs.mapM (encode maxDigits) = .ok texts ∧
        decodeAll maxDigits depth texts.flatten = .ok rs ∧
        List.Forall₂ (fun r v => pyEq r v = true) rs vs) ∧
    (∀ v v' w, Encodable maxDigits v → Encodable maxDigits v' →
      encode maxDigits v = .ok w → encode maxDigits v' = .ok w → pyEq v v' = true) ∧
    (∀ v v' w t, Encodable maxDigits v → Encodable maxDigits v' →
      encode maxDigits v = .ok w → encode maxDigits v' = .ok (w ++ t) → t = []) := by
  refine ⟨?_, ?_, ?_, ?_⟩
  · intro v hv hn
    obtain ⟨w, hw, hd⟩ := encodeAny_prints hlim hv hn
    refine ⟨w, canon v, hw, pyEq_canon hv, ?_, decode_iff.mpr hd⟩
    intro p t
    rw [List.append_assoc, decodeAny_iff]
    exact ⟨w, t, rfl, hd, rfl⟩
  · intro vs hvs
    obtain ⟨texts, ht, hi⟩ := encode_each fun v hv => encodeAny_prints hlim (hvs v hv).1 (hvs v hv).2
    refine ⟨texts, vs.map canon, ht, decodeAll_of_items hi, ?_⟩
    rw [List.forall₂_map_left_iff, List.forall₂_same]
    intro v hv
    exact pyEq_canon (hvs v hv).1
  · intro v v' w hv hv' hw hw'
    exact pyEq_of_canon hv' (encode_prefix_free hlim (t := []) hv hv' hw (by simpa using hw')).2
  · intro v v' w t hv hv' hw hw'
    exact (encode_prefix_free hlim hv hv' hw hw').1

theorem bencode_round_trip_default :
    ∃ texts rs, [BencodeValue.dict [([98], .int (-7)), ([97], .bytes [58])]].mapM (encode 4300) =
        .ok texts ∧ decodeAll 4300 1000 texts.flatten = .ok rs ∧
      List.Forall₂ (fun r v => pyEq r v = true) rs
        [BencodeValue.dict [([98], .int (-7)), ([97], .bytes [58])]] := by
  apply (bencode_round_trip (Or.inr (by decide)) 1000).2.1
  intro v hv
  obtain rfl := List.mem_singleton.mp hv
  refine ⟨⟨by unfold ByteStrings.UniqueKeys; decide, ?_⟩, by decide⟩
  simp only [EncodableItems, Encodable]
  exact ⟨by decide, by decide, by decide, by decide, trivial⟩

end BencodeRoundTrip
