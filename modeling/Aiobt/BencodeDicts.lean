import Aiobt.BencodeCanonical

/-! # Dictionaries that are printed and read

A `dict` with optional entries is printed in key order, and what is read of it gives the same value
under each key. -/
namespace BencodeDicts

open ByteStrings PyDecimal BencodeCodec BencodeGrammar BencodeRoundTrip BencodeCanonical

variable {maxDigits : ℕ}

def present (slots : List (Bytes × Option BencodeValue)) : List (Bytes × BencodeValue) :=
  slots.filterMap fun slot => slot.2.map fun value => (slot.1, value)

theorem mem_of_lookup {α : Type} {items : List (Bytes × α)} {key : Bytes} {a : α}
    (h : items.lookup key = some a) : (key, a) ∈ items := by
  obtain ⟨front, back, rfl, -⟩ := List.lookup_eq_some_iff.mp h
  simp

theorem mem_present {slots : List (Bytes × Option BencodeValue)} {e : Bytes × BencodeValue} :
    e ∈ present slots ↔ (e.1, some e.2) ∈ slots := by
  simp only [present, List.mem_filterMap, Option.map_eq_some_iff]
  constructor
  · rintro ⟨⟨key, value⟩, hmem, v, hvalue, rfl⟩
    simp only at hvalue
    rwa [hvalue] at hmem
  · intro hmem
    exact ⟨(e.1, some e.2), hmem, e.2, rfl, rfl⟩

theorem uniqueKeys_present {slots : List (Bytes × Option BencodeValue)} (h : UniqueKeys slots) :
    UniqueKeys (present slots) := by
  induction slots with
  | nil => exact h
  | cons slot rest ih =>
    obtain ⟨hnot, hrest⟩ := List.nodup_cons.mp h
    have hmore := ih hrest
    cases hvalue : slot.2 with
    | none => simpa [present, hvalue] using hmore
    | some value =>
      have hcons : present (slot :: rest) = (slot.1, value) :: present rest := by
        simp [present, hvalue]
      rw [hcons, UniqueKeys, List.map_cons]
      apply List.nodup_cons.mpr
      refine ⟨?_, hmore⟩
      intro hmem
      obtain ⟨e, he, hkey⟩ := List.mem_map.mp hmem
      simp only at hkey
      apply hnot
      rw [← hkey]
      exact List.mem_map_of_mem (mem_present.mp he)

theorem lookup_present {slots : List (Bytes × Option BencodeValue)} (h : UniqueKeys slots)
    (key : Bytes) : (present slots).lookup key = (slots.lookup key).join := by
  cases hslot : (slots.lookup key).join with
  | some value =>
    apply lookup_of_mem (uniqueKeys_present h)
    rw [mem_present]
    rw [Option.join_eq_some_iff] at hslot
    exact mem_of_lookup hslot
  | none =>
    rw [List.lookup_eq_none_iff]
    intro e he
    rw [bne_iff_ne]
    rintro rfl
    have hfound := lookup_of_mem h (mem_present.mp he)
    rw [hfound] at hslot
    cases hslot

/-- Reading under a key does not see the order of the entries. -/
theorem lookup_canon {items : List (Bytes × BencodeValue)} (h : UniqueKeys items) (key : Bytes) :
    (sortedItems (canonItems items)).lookup key = (items.lookup key).map canon := by
  have hcanon : UniqueKeys (canonItems items) := by
    rw [UniqueKeys, canonItems_keys]
    exact h
  have hsorted : UniqueKeys (sortedItems (canonItems items)) :=
    ((sortedItems_perm _).map Prod.fst).nodup_iff.mpr hcanon
  cases hitem : items.lookup key with
  | some value =>
    apply lookup_of_mem hsorted
    rw [(sortedItems_perm _).mem_iff, canonItems_eq_map]
    exact List.mem_map.mpr ⟨(key, value), mem_of_lookup hitem, rfl⟩
  | none =>
    rw [Option.map_none, List.lookup_eq_none_iff]
    intro e he
    rw [(sortedItems_perm _).mem_iff, canonItems_eq_map] at he
    obtain ⟨u, hu, rfl⟩ := List.mem_map.mp he
    exact List.lookup_eq_none_iff.mp hitem u hu

theorem encodableList_iff {items : List BencodeValue} :
    EncodableList maxDigits items ↔ ∀ v ∈ items, Encodable maxDigits v := by
  induction items with
  | nil => simp [EncodableList]
  | cons v rest ih => rw [EncodableList, ih, List.forall_mem_cons]

theorem encodableItems_iff {items : List (Bytes × BencodeValue)} :
    EncodableItems maxDigits items ↔
      ∀ e ∈ items, e.1.length < 2 ^ 63 ∧ Encodable maxDigits e.2 := by
  induction items with
  | nil => simp [EncodableItems]
  | cons e rest ih => rw [EncodableItems, ih, List.forall_mem_cons, and_assoc]

theorem encodeList_ok {items : List BencodeValue} {ws : Bytes}
    (h : encodeList maxDigits items = .ok ws) :
    ∀ v ∈ items, ∃ w, encodeAny maxDigits v = .ok w := by
  induction items generalizing ws with
  | nil => simp
  | cons v rest ih =>
    rw [encodeList] at h
    cases hv : encodeAny maxDigits v with
    | error e => simp [hv, bind, Except.bind] at h
    | ok w =>
      cases hrest : encodeList maxDigits rest with
      | error e => simp [hv, hrest, bind, Except.bind] at h
      | ok more =>
        rw [List.forall_mem_cons]
        exact ⟨⟨w, hv⟩, ih hrest⟩

theorem encodeValues_ok {items : List (Bytes × BencodeValue)} {pairs : List (Bytes × Bytes)}
    (h : encodeValues maxDigits items = .ok pairs) :
    ∀ e ∈ items, ∃ w, encodeAny maxDigits e.2 = .ok w := by
  induction items generalizing pairs with
  | nil => simp
  | cons e rest ih =>
    rw [encodeValues] at h
    cases hv : encodeAny maxDigits e.2 with
    | error err => simp [hv, bind, Except.bind] at h
    | ok w =>
      cases hrest : encodeValues maxDigits rest with
      | error err => simp [hv, hrest, bind, Except.bind] at h
      | ok more =>
        rw [List.forall_mem_cons]
        exact ⟨⟨w, hv⟩, ih hrest⟩

/-- Only integers past the digit limit keep a value from being encoded. -/
theorem encodable_of_encode {v : BencodeValue} {w : Bytes} (h : encodeAny maxDigits v = .ok w)
    (hsizes : Encodable 0 v) : Encodable maxDigits v := by
  induction hn : nesting v using Nat.strong_induction_on generalizing v w with
  | _ n ih =>
    cases v with
    | int value =>
      by_contra hlimit
      have hlimit : ¬ WithinLimit maxDigits (digitCount value) := hlimit
      simp [encodeAny, encodeInt, strInt, hlimit, bind, Except.bind] at h
    | bytes data => exact hsizes
    | list items =>
      rw [BencodeRoundTrip.Encodable, encodableList_iff] at hsizes ⊢
      intro v hv
      cases hlist : encodeList maxDigits items with
      | error e => simp [encodeAny, hlist, bind, Except.bind] at h
      | ok ws =>
        obtain ⟨w', hw'⟩ := encodeList_ok hlist v hv
        have hle := nesting_of_mem_list hv
        rw [nesting] at hn
        exact ih (nesting v) (by omega) hw' (hsizes v hv) rfl
    | dict items =>
      rw [BencodeRoundTrip.Encodable, encodableItems_iff] at hsizes ⊢
      refine ⟨hsizes.1, ?_⟩
      intro e he
      cases hvalues : encodeValues maxDigits items with
      | error err => simp [encodeAny, hvalues, bind, Except.bind] at h
      | ok pairs =>
        obtain ⟨w', hw'⟩ := encodeValues_ok hvalues e he
        have hle := nesting_of_mem_items he
        rw [nesting] at hn
        exact ⟨(hsizes.2 e he).1, ih (nesting e.2) (by omega) hw' (hsizes.2 e he).2 rfl⟩

/-- What was printed is read as the canonical value, which is printed alike. -/
theorem decode_encode (hlim : maxDigits = 0 ∨ 640 ≤ maxDigits) {depth : ℕ} {v : BencodeValue}
    {w : Bytes} (hv : Encodable maxDigits v) (hnesting : nesting v ≤ depth)
    (hw : encode maxDigits v = .ok w) :
    decode maxDigits depth w = .ok (canon v) ∧ encode maxDigits (canon v) = .ok w := by
  obtain ⟨w', hw', hdenotes⟩ := encodeAny_prints hlim hv hnesting
  obtain rfl : w' = w := Except.ok.inj (hw'.symm.trans hw)
  refine ⟨decode_iff.mpr hdenotes, ?_⟩
  have hplain := encode_plainNumbers hw
  have hre := denotes_reencodes hdenotes []
  rw [List.append_nil] at hre
  exact (hre hplain).1

theorem natText_length_le {text : Bytes} (hd : ∀ b ∈ text, isDigit b = true) (hne : text ≠ []) :
    (natText (digitsValue text)).length ≤ text.length := by
  have hpos := List.length_pos_iff.mpr hne
  unfold natText
  split
  · exact hpos
  · rw [List.length_map, List.length_reverse, Nat.digits_length_le_iff (by decide)]
    have hlt : Nat.ofDigits 10 (text.map digitOf).reverse < 10 ^ (text.map digitOf).reverse.length := by
      apply Nat.ofDigits_lt_base_pow_length (by decide)
      intro d hd'
      obtain ⟨b, hb, rfl⟩ := List.mem_map.mp (List.mem_reverse.mp hd')
      exact digitOf_lt (hd b hb)
    rwa [List.length_reverse, List.length_map] at hlt

theorem unsignedValue_limit {text : Bytes} {n : ℕ} (h : unsignedValue maxDigits text = some n) :
    WithinLimit maxDigits (natText n).length := by
  unfold unsignedValue at h
  simp only [Option.ite_none_right_eq_some, Option.some.injEq, Bool.and_eq_true,
    decide_eq_true_eq] at h
  obtain ⟨⟨⟨hgrouped, -⟩, hlimit⟩, rfl⟩ := h
  rcases hlimit with hzero | hle
  · exact Or.inl hzero
  · refine Or.inr (le_trans (natText_length_le ?_ (groupedDigits_ne_nil hgrouped)) hle)
    intro b hb
    exact (List.mem_filter.mp hb).2

theorem pyInt_limit {raw : Bytes} {z : ℤ} (h : pyInt maxDigits raw = some z) :
    WithinLimit maxDigits (digitCount z) := by
  unfold pyInt at h
  cases hraw : raw.dropWhile isSpace with
  | nil => simp [hraw] at h
  | cons b rest =>
    simp only [hraw] at h
    split_ifs at h
    all_goals
      obtain ⟨n, hn, rfl⟩ := Option.map_eq_some_iff.mp h
      simpa [digitCount] using unsignedValue_limit hn

theorem stringText_length {w data : Bytes} (h : StringText maxDigits w data) :
    data.length < w.length := by
  obtain ⟨raw, rfl, -⟩ := h
  rw [List.length_append, List.length_cons]
  omega

theorem Ascending.uniqueKeys {α : Type} {items : List (Bytes × α)} (h : Ascending items) :
    UniqueKeys items := by
  rw [UniqueKeys, List.Nodup, List.pairwise_map]
  apply List.Pairwise.imp _ h
  intro a b hlt heq
  rw [heq] at hlt
  exact List.lt_irrefl _ hlt

/-- What is read from a text that Python can hold can be printed again. -/
theorem denotes_encodable {depth : ℕ} {w : Bytes} {v : BencodeValue}
    (h : Denotes maxDigits depth w v) (hw : w.length < 2 ^ 63) : Encodable maxDigits v := by
  induction depth generalizing w v with
  | zero => exact h.elim
  | succ depth ih =>
    cases v with
    | int value =>
      obtain ⟨raw, -, hraw⟩ := h
      exact pyInt_limit hraw.value_eq
    | bytes data => exact (stringText_length h).trans hw
    | list items =>
      obtain ⟨ws, rfl, hitems⟩ := h
      rw [BencodeRoundTrip.Encodable, encodableList_iff]
      rw [List.length_cons, List.length_append] at hw
      have hws : ws.length < 2 ^ 63 := by omega
      clear hw
      induction hitems with
      | nil => simp
      | @cons w ws v vs hv _ ihitems =>
        rw [List.length_append] at hws
        rw [List.forall_mem_cons]
        exact ⟨ih hv (by omega), ihitems (by omega)⟩
    | dict items =>
      obtain ⟨ws, rfl, hentries⟩ := h
      rw [List.length_cons, List.length_append] at hw
      have hws : ws.length < 2 ^ 63 := by omega
      clear hw
      have hunique := Ascending.uniqueKeys (entries_ascending hentries)
      rw [BencodeRoundTrip.Encodable, encodableItems_iff]
      refine ⟨hunique, ?_⟩
      clear hunique
      generalize (none : Option Bytes) = prev at hentries
      induction hentries with
      | nil => simp
      | @cons prev wk k w v ws es hkey _ hv _ ihentries =>
        rw [List.length_append, List.length_append] at hws
        have hk := stringText_length hkey
        rw [List.forall_mem_cons]
        have hkey : k.length < 2 ^ 63 := by omega
        exact ⟨⟨hkey, ih hv (by omega)⟩, ihentries (by omega)⟩

theorem denotes_canon {depth : ℕ} {w : Bytes} {v : BencodeValue}
    (h : Denotes maxDigits depth w v) : canon v = v := by
  induction depth generalizing w v with
  | zero => exact h.elim
  | succ depth ih =>
    cases v with
    | int value => rfl
    | bytes data => rfl
    | list items =>
      obtain ⟨ws, -, hitems⟩ := h
      rw [canon]
      congr 1
      induction hitems with
      | nil => rfl
      | cons hv _ ihitems => rw [canonList, ih hv, ihitems]
    | dict items =>
      obtain ⟨ws, -, hentries⟩ := h
      have hasc := entries_ascending hentries
      rw [canon]
      congr 1
      have hitems : canonItems items = items := by
        clear hasc
        generalize (none : Option Bytes) = prev at hentries
        induction hentries with
        | nil => rfl
        | cons _ _ hv _ ihentries => rw [canonItems, ih hv, ihentries]
      rw [hitems, sortedItems_of_ascending hasc]

/-- Dictionaries in key order are equal when they give the same under each key. -/
theorem ascending_ext {α : Type} {a b : List (Bytes × α)} (ha : Ascending a) (hb : Ascending b)
    (h : ∀ key, a.lookup key = b.lookup key) : a = b := by
  have hsub : ∀ {a b : List (Bytes × α)}, UniqueKeys a →
      (∀ key, a.lookup key = b.lookup key) → a ⊆ b := by
    rintro a b hunique hagree ⟨key, value⟩ hmem
    apply mem_of_lookup
    rw [← hagree key]
    exact lookup_of_mem hunique hmem
  have hnodup : ∀ {a : List (Bytes × α)}, Ascending a → a.Nodup := fun hasc =>
    List.Nodup.of_map _ (Ascending.uniqueKeys hasc)
  have hperm : a.Perm b := (List.perm_ext_iff_of_nodup (hnodup ha) (hnodup hb)).mpr fun e =>
    ⟨fun he => hsub (Ascending.uniqueKeys ha) h he,
      fun he => hsub (Ascending.uniqueKeys hb) (fun key => (h key).symm) he⟩
  apply hperm.eq_of_pairwise _ ha hb
  intro u v _ _ huv hvu
  exact absurd (List.lt_trans huv hvu) (List.lt_irrefl _)

/-- Where one dictionary has known keys only, the other is equal to it if it has no other keys and
gives the same under these. -/
theorem ascending_eq_iff {α : Type} {a b : List (Bytes × α)} {keys : List Bytes}
    (ha : Ascending a) (hb : Ascending b) (hkeys : ∀ e ∈ a, e.1 ∈ keys) :
    a = b ↔ (∀ e ∈ b, e.1 ∈ keys) ∧ ∀ key ∈ keys, a.lookup key = b.lookup key := by
  constructor
  · rintro rfl
    exact ⟨hkeys, fun _ _ => rfl⟩
  · rintro ⟨hother, hagree⟩
    apply ascending_ext ha hb
    intro key
    by_cases hkey : key ∈ keys
    · exact hagree key hkey
    · have hnone : ∀ {c : List (Bytes × α)}, (∀ e ∈ c, e.1 ∈ keys) → c.lookup key = none := by
        intro c hc
        rw [List.lookup_eq_none_iff]
        intro e he
        rw [bne_iff_ne]
        rintro rfl
        exact hkey (hc e he)
      rw [hnone hkeys, hnone hother]

end BencodeDicts
