import Aiobt.BencodeRoundTrip
import Aiobt.TorrentMetadata

/-! # Which accepted texts are canonical

`numberTexts` cuts out of a text what the decoder hands to `int()`. The decoder checks for
superfluous zeros, but it leaves signs, white space and underscores to `int()`. An accepted text
is the encoding of its value exactly when none of its number texts makes use of that. -/
namespace BencodeCanonical

open ByteStrings PyDecimal BencodeCodec BencodeGrammar BencodeRoundTrip TorrentMetadata

variable {maxDigits : ℕ}

/-- The texts of integers and of string lengths, from left to right; payloads are skipped. -/
def numberTexts (maxDigits : ℕ) (s : Bytes) : List Bytes :=
  match s with
  | [] => []
  | b :: rest =>
    if b = chrI then
      rest.takeWhile (· != chrE) :: numberTexts maxDigits (rest.dropWhile (· != chrE))
    else if isDigit b then
      let raw := (b :: rest).takeWhile (· != chrColon)
      match pyInt maxDigits raw with
      | some n => raw :: numberTexts maxDigits (rest.drop (raw.length + n.toNat))
      | none => [raw]
    else numberTexts maxDigits rest
termination_by s.length
decreasing_by
  · have := (List.dropWhile_suffix (p := fun b => b != chrE) (l := rest)).length_le
    simp only [List.length_cons]
    omega
  · simp only [List.length_cons, List.length_drop]
    omega
  · simp

def PlainText (raw : Bytes) : Prop := ∀ b ∈ raw, isPlain b = true

instance (raw : Bytes) : Decidable (PlainText raw) := inferInstanceAs (Decidable (∀ b ∈ raw, _))

def PlainNumbers (maxDigits : ℕ) (s : Bytes) : Prop := ∀ raw ∈ numberTexts maxDigits s, PlainText raw

theorem takeWhile_delimiter {raw t : Bytes} {c : UInt8} (h : c ∉ raw) :
    (raw ++ c :: t).takeWhile (· != c) = raw := by
  rw [List.takeWhile_append_of_pos]
  · simp
  · intro b hb
    rw [bne_iff_ne]
    rintro rfl
    exact h hb

theorem dropWhile_delimiter {raw t : Bytes} {c : UInt8} (h : c ∉ raw) :
    (raw ++ c :: t).dropWhile (· != c) = c :: t := by
  rw [List.dropWhile_append_of_pos]
  · simp
  · intro b hb
    rw [bne_iff_ne]
    rintro rfl
    exact h hb

theorem numberTexts_skip {b : UInt8} {t : Bytes} (hi : b ≠ chrI) (hd : isDigit b = false) :
    numberTexts maxDigits (b :: t) = numberTexts maxDigits t := by
  rw [numberTexts, if_neg hi, hd]
  rfl

theorem numberTexts_int {raw t : Bytes} (h : chrE ∉ raw) :
    numberTexts maxDigits (chrI :: (raw ++ chrE :: t)) = raw :: numberTexts maxDigits t := by
  rw [numberTexts, if_pos rfl, takeWhile_delimiter h, dropWhile_delimiter h,
    numberTexts_skip (by decide) (by decide)]

theorem numberTexts_string {raw data t : Bytes} (h : LengthText maxDigits raw data.length) :
    numberTexts maxDigits (raw ++ chrColon :: (data ++ t)) = raw :: numberTexts maxDigits t := by
  obtain ⟨b, rest, rfl, hb⟩ := h.digit
  have hcut : (b :: (rest ++ chrColon :: (data ++ t))).takeWhile (· != chrColon) = b :: rest :=
    takeWhile_delimiter h.no_colon
  have hdrop : (rest ++ chrColon :: (data ++ t)).drop ((b :: rest).length + data.length) = t := by
    have hsplit : rest ++ chrColon :: (data ++ t) = (rest ++ chrColon :: data) ++ t := by simp
    rw [hsplit, List.drop_left' (by simp; omega)]
  rw [List.cons_append, numberTexts, if_neg (digit_ne hb).2.1, if_pos hb, hcut]
  simp only [h.value_eq, Int.toNat_natCast, hdrop]

theorem plainNumbers_cons_text {raw t : Bytes} {s : Bytes}
    (h : numberTexts maxDigits s = raw :: numberTexts maxDigits t) :
    PlainNumbers maxDigits s ↔ PlainText raw ∧ PlainNumbers maxDigits t := by
  rw [PlainNumbers, h, List.forall_mem_cons]
  rfl

theorem plainNumbers_skip {b : UInt8} {t : Bytes} (hi : b ≠ chrI) (hd : isDigit b = false) :
    PlainNumbers maxDigits (b :: t) ↔ PlainNumbers maxDigits t := by
  rw [PlainNumbers, numberTexts_skip hi hd]
  rfl

theorem plainNumbers_int {raw t : Bytes} (h : chrE ∉ raw) :
    PlainNumbers maxDigits (chrI :: (raw ++ chrE :: t)) ↔
      PlainText raw ∧ PlainNumbers maxDigits t :=
  plainNumbers_cons_text (numberTexts_int h)

theorem plainNumbers_string {raw data t : Bytes} (h : LengthText maxDigits raw data.length) :
    PlainNumbers maxDigits ((raw ++ chrColon :: data) ++ t) ↔
      PlainText raw ∧ PlainNumbers maxDigits t := by
  rw [List.append_assoc, List.cons_append]
  exact plainNumbers_cons_text (numberTexts_string h)

theorem intText_of_plain {raw : Bytes} {z : ℤ} (h : IntText maxDigits raw z) (hp : PlainText raw) :
    intText z = raw ∧ WithinLimit maxDigits (digitCount z) := by
  rcases pyInt_plain hp h.value_eq with ⟨hne, hd, hz, hlim⟩ | ⟨text, rfl, hne, hd, hz, hlim⟩
  · have hraw : natText (digitsValue raw) = raw := by
      apply natText_digitsValue hne hd
      intro hhead
      by_contra hlen
      obtain ⟨b, rest, rfl⟩ := List.exists_cons_of_ne_nil hne
      obtain rfl : b = 48 := by simpa using hhead
      exact h.no_leading_zero ⟨by simp at hlen ⊢; exact List.length_pos_iff.mpr hlen, rfl⟩
    subst hz
    rw [intText_ofNat, hraw]
    refine ⟨rfl, ?_⟩
    rwa [digitCount, Int.natAbs_natCast, hraw]
  · have htext : natText (digitsValue text) = text := by
      apply natText_digitsValue hne hd
      intro hhead
      obtain ⟨b, rest, rfl⟩ := List.exists_cons_of_ne_nil hne
      obtain rfl : b = 48 := by simpa using hhead
      exact absurd ⟨by simp, rfl⟩ h.no_negative_leading_zero
    have hval : digitsValue text ≠ 0 := by
      intro h0
      rw [h0] at htext
      exact h.not_negative_zero (by rw [← htext]; rfl)
    subst hz
    rw [intText_neg hval, htext]
    refine ⟨rfl, ?_⟩
    rwa [digitCount, Int.natAbs_neg, Int.natAbs_natCast, htext]

theorem natText_of_plain {raw : Bytes} {n : ℕ} (h : LengthText maxDigits raw n)
    (hp : PlainText raw) : natText n = raw ∧ WithinLimit maxDigits (natText n).length := by
  obtain ⟨b, rest, rfl, hb⟩ := h.digit
  rcases pyInt_plain hp h.value_eq with ⟨hne, hd, hz, hlim⟩ | ⟨text, heq, -⟩
  · have hraw : natText (digitsValue (b :: rest)) = b :: rest := by
      apply natText_digitsValue hne hd
      intro hhead
      by_contra hlen
      obtain rfl : b = 48 := by simpa using hhead
      exact h.no_leading_zero ⟨by simp at hlen ⊢; exact List.length_pos_iff.mpr hlen, rfl⟩
    obtain rfl : n = digitsValue (b :: rest) := by exact_mod_cast hz
    rw [hraw]
    exact ⟨rfl, hlim⟩
  · obtain rfl : b = 45 := (List.cons.inj heq).1
    exact absurd hb (by decide)

def Transparent (maxDigits : ℕ) (w : Bytes) : Prop :=
  ∀ t, PlainNumbers maxDigits (w ++ t) ↔ PlainNumbers maxDigits t

theorem Transparent.append {w₁ w₂ : Bytes} (h₁ : Transparent maxDigits w₁)
    (h₂ : Transparent maxDigits w₂) : Transparent maxDigits (w₁ ++ w₂) := by
  intro t
  rw [List.append_assoc]
  exact (h₁ _).trans (h₂ t)

theorem Transparent.wrap {b : UInt8} {w : Bytes} (hi : b ≠ chrI) (hd : isDigit b = false)
    (h : Transparent maxDigits w) : Transparent maxDigits (b :: w ++ [chrE]) := by
  intro t
  rw [List.cons_append, List.cons_append, plainNumbers_skip hi hd, List.append_assoc, h,
    List.singleton_append, plainNumbers_skip (by decide) (by decide)]

theorem intText_plainText (z : ℤ) : PlainText (intText z) := fun _ => intText_isPlain

theorem encodeBytes_transparent {data w : Bytes} (h : encodeBytes maxDigits data = .ok w) :
    Transparent maxDigits w := by
  unfold encodeBytes strInt at h
  split at h
  · next hlim =>
    simp only [bind, Except.bind, Except.ok.injEq, intText_ofNat] at h
    subst h
    intro t
    rw [plainNumbers_string (lengthText_natText (by simpa [digitCount] using hlim))]
    exact and_iff_right (by rw [← intText_ofNat]; exact intText_plainText _)
  · simp [bind, Except.bind] at h

theorem encodeItems_transparent {pairs : List (Bytes × Bytes)} {ws : Bytes}
    (h : encodeItems maxDigits pairs = .ok ws) (hp : ∀ e ∈ pairs, Transparent maxDigits e.2) :
    Transparent maxDigits ws := by
  induction pairs generalizing ws with
  | nil =>
    obtain rfl := Except.ok.inj h
    intro t
    rfl
  | cons e rest ih =>
    unfold encodeItems at h
    cases hk : encodeBytes maxDigits e.1 with
    | error err => simp [hk, bind, Except.bind] at h
    | ok wk =>
      cases hr : encodeItems maxDigits rest with
      | error err => simp [hk, hr, bind, Except.bind] at h
      | ok texts =>
        simp only [hk, hr, bind, Except.bind, Except.ok.injEq] at h
        subst h
        have hrest := ih hr fun u hu => hp u (List.mem_cons_of_mem _ hu)
        exact (encodeBytes_transparent hk).append ((hp e (List.mem_cons_self ..)).append hrest)

theorem encodeList_transparent {items : List BencodeValue} {ws : Bytes}
    (h : encodeList maxDigits items = .ok ws)
    (hp : ∀ v ∈ items, ∀ w, encodeAny maxDigits v = .ok w → Transparent maxDigits w) :
    Transparent maxDigits ws := by
  induction items generalizing ws with
  | nil =>
    obtain rfl := Except.ok.inj h
    intro t
    rfl
  | cons v rest ih =>
    unfold encodeList at h
    cases hv : encodeAny maxDigits v with
    | error err => simp [hv, bind, Except.bind] at h
    | ok w =>
      cases hr : encodeList maxDigits rest with
      | error err => simp [hv, hr, bind, Except.bind] at h
      | ok texts =>
        simp only [hv, hr, bind, Except.bind, Except.ok.injEq] at h
        subst h
        exact (hp v (List.mem_cons_self ..) w hv).append
          (ih hr fun u hu => hp u (List.mem_cons_of_mem _ hu))

theorem encodeValues_transparent {items : List (Bytes × BencodeValue)}
    {pairs : List (Bytes × Bytes)} (h : encodeValues maxDigits items = .ok pairs)
    (hp : ∀ e ∈ items, ∀ w, encodeAny maxDigits e.2 = .ok w → Transparent maxDigits w) :
    ∀ e ∈ pairs, Transparent maxDigits e.2 := by
  induction items generalizing pairs with
  | nil =>
    obtain rfl := Except.ok.inj h
    simp
  | cons e rest ih =>
    unfold encodeValues at h
    cases hv : encodeAny maxDigits e.2 with
    | error err => simp [hv, bind, Except.bind] at h
    | ok w =>
      cases hr : encodeValues maxDigits rest with
      | error err => simp [hv, hr, bind, Except.bind] at h
      | ok texts =>
        simp only [hv, hr, bind, Except.bind, Except.ok.injEq] at h
        subst h
        intro u hu
        rcases List.mem_cons.mp hu with rfl | hu
        · exact hp e (List.mem_cons_self ..) w hv
        · exact ih hr (fun x hx => hp x (List.mem_cons_of_mem _ hx)) u hu

theorem encodeAny_transparent {v : BencodeValue} {w : Bytes}
    (h : encodeAny maxDigits v = .ok w) : Transparent maxDigits w := by
  have main : ∀ n, ∀ v w, nesting v ≤ n → encodeAny maxDigits v = .ok w →
      Transparent maxDigits w := by
    intro n
    induction n with
    | zero =>
      intro v w hn
      cases v <;> simp [nesting] at hn
    | succ n ih =>
      intro v w hn h
      cases v with
      | int value =>
        unfold encodeAny encodeInt strInt at h
        split at h
        · simp only [bind, Except.bind, Except.ok.injEq] at h
          subst h
          have hno : chrE ∉ intText value := fun hm => absurd (intText_isPlain hm) (by decide)
          intro t
          rw [List.cons_append, List.cons_append, List.append_assoc, List.singleton_append,
            plainNumbers_int hno]
          exact and_iff_right (intText_plainText value)
        · simp [bind, Except.bind] at h
      | bytes data => exact encodeBytes_transparent h
      | list items =>
        rw [nesting] at hn
        unfold encodeAny at h
        cases hl : encodeList maxDigits items with
        | error err => simp [hl, bind, Except.bind] at h
        | ok ws =>
          simp only [hl, bind, Except.bind, Except.ok.injEq] at h
          subst h
          exact (encodeList_transparent hl fun u hu x hx =>
            ih u x ((nesting_of_mem_list hu).trans (by omega)) hx).wrap (by decide) (by decide)
      | dict items =>
        rw [nesting] at hn
        unfold encodeAny at h
        cases hv : encodeValues maxDigits items with
        | error err => simp [hv, bind, Except.bind] at h
        | ok pairs =>
          cases hs : encodeItems maxDigits (sortedItems pairs) with
          | error err => simp [hv, hs, bind, Except.bind] at h
          | ok ws =>
            simp only [hv, hs, bind, Except.bind, Except.ok.injEq] at h
            subst h
            have hp := encodeValues_transparent hv fun e he x hx =>
              ih e.2 x ((nesting_of_mem_items he).trans (by omega)) hx
            exact (encodeItems_transparent hs fun e he =>
              hp e ((sortedItems_perm pairs).mem_iff.mp he)).wrap (by decide) (by decide)
  exact main (nesting v) v w le_rfl h

theorem encode_plainNumbers {v : BencodeValue} {w : Bytes} (h : encode maxDigits v = .ok w) :
    PlainNumbers maxDigits w := by
  have ht := (encodeAny_transparent h []).mpr (by rw [PlainNumbers, numberTexts]; simp)
  rwa [List.append_nil] at ht

/-- What a text with plain numbers says about its value, and about what follows it. -/
def Reencodes (maxDigits : ℕ) (w : Bytes) (v : BencodeValue) : Prop :=
  ∀ t, PlainNumbers maxDigits (w ++ t) → encodeAny maxDigits v = .ok w ∧ PlainNumbers maxDigits t

theorem stringText_reencodes {w data : Bytes} (h : StringText maxDigits w data) {t : Bytes}
    (hp : PlainNumbers maxDigits (w ++ t)) :
    encodeBytes maxDigits data = .ok w ∧ PlainNumbers maxDigits t := by
  obtain ⟨raw, rfl, hl⟩ := h
  obtain ⟨hraw, ht⟩ := (plainNumbers_string hl).mp hp
  obtain ⟨hn, hlim⟩ := natText_of_plain hl hraw
  refine ⟨?_, ht⟩
  have hs : strInt maxDigits data.length = .ok raw := by
    rw [strInt, if_pos (by simpa [digitCount] using hlim), intText_ofNat, hn]
  simp [encodeBytes, hs, bind, Except.bind]

theorem items_reencode {P : Bytes → BencodeValue → Prop}
    (hP : ∀ w v, P w v → Reencodes maxDigits w v) {ws : Bytes} {vs : List BencodeValue}
    (h : Items P ws vs) {t : Bytes} (hp : PlainNumbers maxDigits (ws ++ t)) :
    encodeList maxDigits vs = .ok ws ∧ PlainNumbers maxDigits t := by
  induction h with
  | nil => exact ⟨rfl, hp⟩
  | @cons w ws v vs hw _ ih =>
    rw [List.append_assoc] at hp
    obtain ⟨hv, hp⟩ := hP w v hw _ hp
    obtain ⟨hvs, ht⟩ := ih hp
    exact ⟨by simp [encodeList, hv, hvs, bind, Except.bind], ht⟩

theorem entries_reencode {P : Bytes → BencodeValue → Prop}
    (hP : ∀ w v, P w v → Reencodes maxDigits w v) {prev : Option Bytes} {ws : Bytes}
    {es : List (Bytes × BencodeValue)} (h : Entries P maxDigits prev ws es) {t : Bytes}
    (hp : PlainNumbers maxDigits (ws ++ t)) :
    ∃ pairs, encodeValues maxDigits es = .ok pairs ∧ encodeItems maxDigits pairs = .ok ws ∧
      pairs.map Prod.fst = es.map Prod.fst ∧ PlainNumbers maxDigits t := by
  induction h with
  | nil => exact ⟨[], rfl, rfl, rfl, hp⟩
  | @cons prev wk k w v ws es hwk _ hw _ ih =>
    rw [List.append_assoc, List.append_assoc] at hp
    obtain ⟨hk, hp⟩ := stringText_reencodes hwk hp
    obtain ⟨hv, hp⟩ := hP w v hw _ hp
    obtain ⟨pairs, hvs, hi, hkeys, ht⟩ := ih hp
    refine ⟨(k, w) :: pairs, ?_, ?_, ?_, ht⟩
    · simp [encodeValues, hv, hvs, bind, Except.bind]
    · simp [encodeItems, hk, hi, bind, Except.bind]
    · simp [hkeys]

theorem entries_keys_gt {P : Bytes → BencodeValue → Prop} {prev : Option Bytes} {ws : Bytes}
    {es : List (Bytes × BencodeValue)} (h : Entries P maxDigits prev ws es) :
    ∀ p ∈ prev, ∀ e ∈ es, p < e.1 := by
  induction h with
  | nil => simp
  | @cons prev wk k w v ws es _ hlt _ _ ih =>
    intro p hp e he
    rcases List.mem_cons.mp he with rfl | he
    · exact hlt p hp
    · exact List.lt_trans (hlt p hp) (ih k rfl e he)

theorem entries_ascending {P : Bytes → BencodeValue → Prop} {prev : Option Bytes} {ws : Bytes}
    {es : List (Bytes × BencodeValue)} (h : Entries P maxDigits prev ws es) : Ascending es := by
  induction h with
  | nil => exact List.Pairwise.nil
  | @cons prev wk k w v ws es _ _ _ hes ih =>
    exact List.pairwise_cons.mpr ⟨entries_keys_gt hes k rfl, ih⟩

theorem ascending_of_keys {α β : Type} {a : List (Bytes × α)} {b : List (Bytes × β)}
    (h : a.map Prod.fst = b.map Prod.fst) (hb : Ascending b) : Ascending a := by
  have hm : (b.map Prod.fst).Pairwise (· < ·) := List.pairwise_map.mpr hb
  rw [← h] at hm
  exact List.pairwise_map.mp hm

theorem denotes_reencodes {depth : ℕ} {w : Bytes} {v : BencodeValue}
    (h : Denotes maxDigits depth w v) : Reencodes maxDigits w v := by
  induction depth generalizing w v with
  | zero => exact h.elim
  | succ depth ih =>
    intro t hp
    cases v with
    | int value =>
      obtain ⟨raw, rfl, hr⟩ := h
      rw [List.cons_append, List.append_assoc, List.singleton_append,
        plainNumbers_int hr.no_end] at hp
      obtain ⟨hz, hlim⟩ := intText_of_plain hr hp.1
      refine ⟨?_, hp.2⟩
      simp [encodeAny, encodeInt, strInt, hlim, hz, bind, Except.bind]
    | bytes data => exact stringText_reencodes h hp
    | list items =>
      obtain ⟨ws, rfl, hi⟩ := h
      rw [List.cons_append, List.append_assoc, List.singleton_append,
        plainNumbers_skip (by decide) (by decide)] at hp
      obtain ⟨hl, hp⟩ := items_reencode (fun _ _ => ih) hi hp
      rw [plainNumbers_skip (by decide) (by decide)] at hp
      exact ⟨by simp [encodeAny, hl, bind, Except.bind], hp⟩
    | dict items =>
      obtain ⟨ws, rfl, hes⟩ := h
      rw [List.cons_append, List.append_assoc, List.singleton_append,
        plainNumbers_skip (by decide) (by decide)] at hp
      obtain ⟨pairs, hv, hi, hkeys, hp⟩ := entries_reencode (fun _ _ => ih) hes hp
      rw [plainNumbers_skip (by decide) (by decide)] at hp
      have hsort := sortedItems_of_ascending (ascending_of_keys hkeys (entries_ascending hes))
      exact ⟨by simp [encodeAny, hv, hsort, hi, bind, Except.bind], hp⟩

/-- `ItemText P maxDigits key prev ws w`: among the items `ws` of a `dict`, the value of `key`
stands in the text as `w`. -/
inductive ItemText (P : Bytes → BencodeValue → Prop) (maxDigits : ℕ) (key : Bytes) :
    Option Bytes → Bytes → Bytes → Prop where
  | here {prev wk w v ws es} : StringText maxDigits wk key → (∀ p ∈ prev, p < key) → P w v →
      Entries P maxDigits (some key) ws es → ItemText P maxDigits key prev (wk ++ (w ++ ws)) w
  | there {prev wk k w' v ws w} : StringText maxDigits wk k → (∀ p ∈ prev, p < k) → P w' v →
      ItemText P maxDigits key (some k) ws w → ItemText P maxDigits key prev (wk ++ (w' ++ ws)) w

def InfoText (maxDigits depth : ℕ) (data w : Bytes) : Prop :=
  ∃ inner ws, depth = inner + 1 ∧ data = chrD :: (ws ++ [chrE]) ∧
    ItemText (Denotes maxDigits inner) maxDigits keyInfo none ws w

theorem ItemText.entries {P : Bytes → BencodeValue → Prop} {key : Bytes} {prev : Option Bytes}
    {ws w : Bytes} (h : ItemText P maxDigits key prev ws w) :
    ∃ es v, Entries P maxDigits prev ws es ∧ es.lookup key = some v ∧ P w v := by
  induction h with
  | @here prev wk w v ws es hwk hlt hw hes =>
    exact ⟨(key, v) :: es, v, .cons hwk hlt hw hes, by simp, hw⟩
  | @there prev wk k w' v ws w hwk hlt hw' _ ih =>
    obtain ⟨es, u, hes, hl, hw⟩ := ih
    refine ⟨(k, v) :: es, u, .cons hwk hlt hw' hes, ?_, hw⟩
    have hne : (key == k) = false := by
      simp only [beq_eq_false_iff_ne, ne_eq]
      rintro rfl
      obtain ⟨e, he, hk⟩ : ∃ e ∈ es, e.1 = key := by
        obtain ⟨l₁, l₂, rfl, -⟩ := List.lookup_eq_some_iff.mp hl
        exact ⟨(key, u), by simp, rfl⟩
      have := entries_keys_gt hes key rfl e he
      rw [hk] at this
      exact List.lt_irrefl key this
    rw [List.lookup_cons, hne]
    exact hl

theorem Entries.itemText {P : Bytes → BencodeValue → Prop} {key : Bytes} {prev : Option Bytes}
    {ws : Bytes} {es : List (Bytes × BencodeValue)} {v : BencodeValue}
    (h : Entries P maxDigits prev ws es) (hl : es.lookup key = some v) :
    ∃ w, ItemText P maxDigits key prev ws w := by
  induction h with
  | nil => simp at hl
  | @cons prev wk k w u ws es hwk hlt hw hes ih =>
    by_cases hk : key = k
    · subst hk
      exact ⟨w, .here hwk hlt hw hes⟩
    · have hne : (key == k) = false := by simpa using hk
      rw [List.lookup_cons, hne] at hl
      obtain ⟨w', hi⟩ := ih hl
      exact ⟨w', .there hwk hlt hw hi⟩

theorem ItemText.plain {P : Bytes → BencodeValue → Prop}
    (hP : ∀ w v, P w v → Reencodes maxDigits w v) {key : Bytes} {prev : Option Bytes} {ws w : Bytes}
    (h : ItemText P maxDigits key prev ws w) {t : Bytes} (hp : PlainNumbers maxDigits (ws ++ t)) :
    ∃ t', PlainNumbers maxDigits (w ++ t') := by
  induction h with
  | @here prev wk w v ws es hwk _ hw _ =>
    rw [List.append_assoc, List.append_assoc] at hp
    exact ⟨_, (stringText_reencodes hwk hp).2⟩
  | @there prev wk k w' v ws w hwk _ hw' _ ih =>
    rw [List.append_assoc, List.append_assoc] at hp
    exact ih (hP w' v hw' _ (stringText_reencodes hwk hp).2).2

def Canonical (maxDigits depth : ℕ) (s : Bytes) : Prop :=
  ∀ v, decode maxDigits depth s = .ok v → encode maxDigits v = .ok s

def HashesInfoBytes (sha1 : Bytes → Bytes) (maxDigits depth : ℕ) (s : Bytes) : Prop :=
  ∀ m, parseTorrentBytes sha1 maxDigits depth s = .ok m →
    (∃ w, InfoText maxDigits depth s w) ∧ ∀ w, InfoText maxDigits depth s w → m.infoHash = sha1 w

theorem canonical_of_plain {depth : ℕ} {s : Bytes} (hp : PlainNumbers maxDigits s) :
    Canonical maxDigits depth s := by
  intro v hv
  exact (denotes_reencodes (decode_iff.mp hv) [] (by rwa [List.append_nil])).1

theorem hashesInfoBytes_of_plain (sha1 : Bytes → Bytes) {depth : ℕ} {s : Bytes}
    (hp : PlainNumbers maxDigits s) : HashesInfoBytes sha1 maxDigits depth s := by
  intro m hm
  obtain ⟨top, infoDict, encoded, hd, hl, he, hh, -⟩ := parseTorrentBytes_ok hm
  have hden := decode_iff.mp hd
  cases depth with
  | zero => exact hden.elim
  | succ inner =>
    obtain ⟨ws, rfl, hes⟩ := hden
    constructor
    · obtain ⟨w, hw⟩ := Entries.itemText hes hl
      exact ⟨w, inner, ws, rfl, rfl, hw⟩
    · rintro w ⟨inner', ws', hin, hdata, hitem⟩
      obtain rfl : inner' = inner := by omega
      obtain rfl : ws' = ws :=
        List.append_cancel_right (List.cons.inj hdata).2.symm
      obtain ⟨es, v, hes', hl', hw⟩ := hitem.entries
      -- both readings of the items give the same dictionary
      have htop : es = top := by
        have h1 : decode maxDigits (inner' + 1) (chrD :: (ws' ++ [chrE])) = .ok (.dict es) :=
          decode_iff.mpr ⟨ws', rfl, hes'⟩
        exact BencodeValue.dict.inj (Except.ok.inj (h1.symm.trans hd))
      obtain rfl : v = .dict infoDict := Option.some.inj (hl'.symm.trans (htop ▸ hl))
      rw [plainNumbers_skip (by decide) (by decide)] at hp
      obtain ⟨t, ht⟩ := hitem.plain (fun _ _ => denotes_reencodes) hp
      obtain rfl : w = encoded :=
        Except.ok.inj ((denotes_reencodes hw t ht).1.symm.trans he)
      exact hh

theorem canonical_iff_plain_numbers (sha1 : Bytes → Bytes) (maxDigits depth : ℕ) (s : Bytes) :
    (Canonical maxDigits depth s ∧ HashesInfoBytes sha1 maxDigits depth s) ↔
      ((∀ v, decode maxDigits depth s ≠ .ok v) ∨ PlainNumbers maxDigits s) := by
  constructor
  · rintro ⟨hc, -⟩
    by_cases h : ∃ v, decode maxDigits depth s = .ok v
    · obtain ⟨v, hv⟩ := h
      exact Or.inr (encode_plainNumbers (hc v hv))
    · exact Or.inl fun v hv => h ⟨v, hv⟩
  · rintro (h | hp)
    · refine ⟨fun v hv => absurd hv (h v), ?_⟩
      intro m hm
      obtain ⟨top, -, -, hd, -⟩ := parseTorrentBytes_ok hm
      exact absurd hd (h _)
    · exact ⟨canonical_of_plain hp, hashesInfoBytes_of_plain sha1 hp⟩

/-- An info dictionary of one file whose length is written `i+1e`. -/
def signedInfo : Bytes :=
  [100, 54, 58, 108, 101, 110, 103, 116, 104, 105, 43, 49, 101, 52, 58, 110, 97, 109, 101, 49,
    58, 97, 49, 50, 58, 112, 105, 101, 99, 101, 32, 108, 101, 110, 103, 116, 104, 105, 49, 101,
    54, 58, 112, 105, 101, 99, 101, 115, 48, 58, 101]

def unsignedInfo : Bytes :=
  [100, 54, 58, 108, 101, 110, 103, 116, 104, 105, 49, 101, 52, 58, 110, 97, 109, 101, 49, 58,
    97, 49, 50, 58, 112, 105, 101, 99, 101, 32, 108, 101, 110, 103, 116, 104, 105, 49, 101, 54,
    58, 112, 105, 101, 99, 101, 115, 48, 58, 101]

def signedTorrent : Bytes := chrD :: ([52, 58] ++ keyInfo ++ (signedInfo ++ []) ++ [chrE])

theorem signedTorrent_infoText : InfoText 4300 1000 signedTorrent signedInfo := by
  refine ⟨999, [52, 58] ++ keyInfo ++ (signedInfo ++ []), rfl, rfl, ?_⟩
  have hkey : StringText 4300 ([52, 58] ++ keyInfo) keyInfo := by
    refine ⟨[52], rfl, by decide, ⟨52, [], rfl, by decide⟩, by decide, by decide⟩
  have hinfo : ∃ v, decode 4300 999 signedInfo = .ok v := ⟨_, rfl⟩
  obtain ⟨v, hv⟩ := hinfo
  exact .here hkey (by simp) (decode_iff.mp hv) .nil

/-- `i+5e` is accepted as 5, and a torrent with a signed length is accepted under the hash of
bytes that do not stand in it. -/
theorem plus_sign_accepted :
    ¬ (∀ s, Canonical 4300 1000 s) ∧ InfoText 4300 1000 signedTorrent signedInfo ∧
    unsignedInfo ≠ signedInfo ∧
    ∀ sha1, ∃ m, parseTorrentBytes sha1 4300 1000 signedTorrent = .ok m ∧
      m.infoHash = sha1 unsignedInfo := by
  refine ⟨?_, signedTorrent_infoText, by decide, fun sha1 => ⟨_, rfl, rfl⟩⟩
  intro h
  have h5 : encode 4300 (.int 5) = .ok [105, 43, 53, 101] := h [105, 43, 53, 101] (.int 5) rfl
  have he : encode 4300 (.int 5) = .ok [105, 53, 101] := rfl
  exact absurd (Except.ok.inj (he.symm.trans h5)) (by decide)

end BencodeCanonical
