import Aiobt.AsciiText

/-! # Query strings

Percent-encoding of bytes, and the pairs of a name and a value that a query string holds. -/
namespace QueryStrings

open ByteStrings
open AsciiText (hexValue)
open SurrogateUtf8 (PyStr)

def isUnreserved (b : UInt8) : Bool :=
  (65 ≤ b && b ≤ 90) || (97 ≤ b && b ≤ 122) || (48 ≤ b && b ≤ 57) || b == 95 || b == 46 || b == 45 ||
    b == 126

def upperHex (n : ℕ) : ℕ := if n < 10 then 48 + n else 55 + n

def quoteByte (b : UInt8) : PyStr :=
  if isUnreserved b then [b.toNat] else [37, upperHex (b.toNat / 16), upperHex (b.toNat % 16)]

def quote (text : Bytes) : PyStr := text.flatMap quoteByte

def quotePair (p : Bytes × Bytes) : PyStr := quote p.1 ++ 61 :: quote p.2

def urlencode (params : List (Bytes × Bytes)) : PyStr := [38].intercalate (params.map quotePair)

/-- `unquote`: an escape is the number of its byte, and what is no escape stands for itself. -/
def unquote : PyStr → PyStr
  | [] => []
  | [c] => [c]
  | [c, d] => [c, d]
  | c :: d :: e :: rest =>
    if c = 37 then
      match hexValue d, hexValue e with
      | some hi, some lo => (hi * 16 + lo) :: unquote rest
      | _, _ => c :: unquote (d :: e :: rest)
    else c :: unquote (d :: e :: rest)

def decodePart (text : PyStr) : PyStr := unquote (text.map fun c => if c = 43 then 32 else c)

def splitPair (part : PyStr) : PyStr × PyStr :=
  (decodePart (part.takeWhile (· ≠ 61)), decodePart (part.dropWhile (· ≠ 61)).tail)

def parseQsl (query : PyStr) : List (PyStr × PyStr) :=
  ((query.splitOn 38).filter fun part => part ≠ []).map splitPair

def queryOf (url : PyStr) : PyStr := ((url.takeWhile (· ≠ 35)).dropWhile (· ≠ 63)).tail

def textOf (b : Bytes) : PyStr := b.map UInt8.toNat

theorem upperHex_range {n : ℕ} (h : n < 16) :
    (48 ≤ upperHex n ∧ upperHex n ≤ 57) ∨ (65 ≤ upperHex n ∧ upperHex n ≤ 70) := by
  unfold upperHex
  split <;> omega

theorem hexValue_upperHex {n : ℕ} (h : n < 16) : hexValue (upperHex n) = some n := by
  unfold hexValue upperHex
  split_ifs <;> first | omega | (congr 1; omega)

/-- The characters that separate parts, pairs and queries are not among the quoted ones. -/
theorem mem_quote {text : Bytes} {c : ℕ} (h : c ∈ quote text) :
    c ≠ 43 ∧ c ≠ 61 ∧ c ≠ 38 ∧ c ≠ 63 ∧ c ≠ 35 := by
  obtain ⟨b, -, hc⟩ := List.mem_flatMap.mp h
  have hb := b.toNat_lt
  unfold quoteByte at hc
  split at hc
  · next hsafe =>
    rw [List.mem_singleton] at hc
    subst hc
    simp [isUnreserved, UInt8.le_iff_toNat_le, ← UInt8.toNat_inj] at hsafe
    omega
  · have hhigh := upperHex_range (n := b.toNat / 16) (by omega)
    have hlow := upperHex_range (n := b.toNat % 16) (by omega)
    simp only [List.mem_cons, List.not_mem_nil, or_false] at hc
    omega

theorem isUnreserved_ne {b : UInt8} (h : isUnreserved b = true) : b.toNat ≠ 37 := by
  intro heq
  obtain rfl : b = 37 := UInt8.toNat_inj.mp heq
  cases h

theorem unquote_cons {c : ℕ} (h : c ≠ 37) (rest : PyStr) : unquote (c :: rest) = c :: unquote rest := by
  match rest with
  | [] => rfl
  | [_] => rfl
  | _ :: _ :: _ => rw [unquote, if_neg h]

theorem unquote_quoteByte (b : UInt8) (rest : PyStr) :
    unquote (quoteByte b ++ rest) = b.toNat :: unquote rest := by
  have hb := b.toNat_lt
  unfold quoteByte
  split
  · next hsafe =>
    rw [List.singleton_append, unquote_cons (isUnreserved_ne hsafe)]
  · rw [List.cons_append, List.cons_append, List.cons_append, List.nil_append, unquote, if_pos rfl,
      hexValue_upperHex (by omega), hexValue_upperHex (by omega)]
    have hbyte : b.toNat / 16 * 16 + b.toNat % 16 = b.toNat := by omega
    dsimp only
    rw [hbyte]

theorem unquote_quote (text : Bytes) : unquote (quote text) = textOf text := by
  induction text with
  | nil => rfl
  | cons b text ih =>
    rw [quote, List.flatMap_cons, unquote_quoteByte, ← quote, ih]
    rfl

theorem map_plus_quote (text : Bytes) :
    (quote text).map (fun c => if c = 43 then 32 else c) = quote text := by
  refine (List.map_congr_left fun c hc => ?_).trans (List.map_id _)
  exact if_neg (mem_quote hc).1

theorem decodePart_quote (text : Bytes) : decodePart (quote text) = textOf text := by
  rw [decodePart, map_plus_quote, unquote_quote]

theorem decodePart_question (text : Bytes) : decodePart (63 :: quote text) = 63 :: textOf text := by
  rw [decodePart, List.map_cons, if_neg (by decide), map_plus_quote, unquote_cons (by decide),
    unquote_quote]

theorem amp_not_mem_quotePair (p : Bytes × Bytes) : 38 ∉ quotePair p := by
  intro h
  rcases List.mem_append.mp h with h | h
  · exact (mem_quote h).2.2.1 rfl
  · rcases List.mem_cons.mp h with h | h
    · cases h
    · exact (mem_quote h).2.2.1 rfl

theorem quotePair_ne_nil (p : Bytes × Bytes) : quotePair p ≠ [] :=
  List.append_ne_nil_of_right_ne_nil _ (List.cons_ne_nil _ _)

/-- What stands before a pair without `=` belongs to its name. -/
theorem splitPair_quotePair (front : PyStr) (h : 61 ∉ front) (p : Bytes × Bytes) :
    splitPair (front ++ quotePair p) = (decodePart (front ++ quote p.1), textOf p.2) := by
  have hname : ∀ c ∈ front ++ quote p.1, decide (c ≠ 61) = true := by
    intro c hc
    rcases List.mem_append.mp hc with hc | hc
    · exact decide_eq_true fun heq => h (heq ▸ hc)
    · exact decide_eq_true (mem_quote hc).2.1
  rw [splitPair, quotePair, ← List.append_assoc, List.takeWhile_append_of_pos hname,
    List.dropWhile_append_of_pos hname, List.takeWhile_cons_of_neg (by decide),
    List.dropWhile_cons_of_neg (by decide), List.append_nil, List.tail_cons, decodePart_quote]

def textPair (p : Bytes × Bytes) : PyStr × PyStr := (textOf p.1, textOf p.2)

theorem splitPair_pair (p : Bytes × Bytes) : splitPair (quotePair p) = textPair p := by
  have hpair := splitPair_quotePair [] List.not_mem_nil p
  rwa [List.nil_append, List.nil_append, decodePart_quote] at hpair

theorem sharp_not_mem_urlencode (params : List (Bytes × Bytes)) : 35 ∉ urlencode params := by
  intro h
  rcases AsciiText.mem_join h with hsep | ⟨part, hpart, hc⟩
  · cases List.mem_singleton.mp hsep
  · obtain ⟨p, -, rfl⟩ := List.mem_map.mp hpart
    rcases List.mem_append.mp hc with hc | hc
    · exact (mem_quote hc).2.2.2.2 rfl
    · rcases List.mem_cons.mp hc with hc | hc
      · cases hc
      · exact (mem_quote hc).2.2.2.2 rfl

theorem queryOf_eq {url : PyStr} (h : 35 ∉ url) :
    queryOf url = (url.dropWhile (· ≠ 63)).tail := by
  rw [queryOf, List.takeWhile_eq_self_iff.mpr]
  intro c hc
  exact decide_eq_true fun heq => h (heq ▸ hc)

theorem dropWhile_question {front : PyStr} (h : 63 ∉ front) (rest : PyStr) :
    (front ++ rest).dropWhile (· ≠ 63) = rest.dropWhile (· ≠ 63) := by
  apply List.dropWhile_append_of_pos
  intro c hc
  exact decide_eq_true fun heq => h (heq ▸ hc)

theorem queryOf_none {url : PyStr} (hsharp : 35 ∉ url) (h : 63 ∉ url) : queryOf url = [] := by
  have hdrop := dropWhile_question h []
  rw [List.append_nil] at hdrop
  rw [queryOf_eq hsharp, hdrop]
  rfl

theorem queryOf_append {url rest : PyStr} (hurl : 35 ∉ url) (hrest : 35 ∉ rest) :
    queryOf (url ++ 63 :: rest) = if 63 ∈ url then queryOf url ++ 63 :: rest else rest := by
  have hsharp : 35 ∉ url ++ 63 :: rest := by simp [hurl, hrest]
  rw [queryOf_eq hsharp, queryOf_eq hurl]
  split
  · next hmem =>
    obtain ⟨front, query, rfl, hfront⟩ := List.eq_append_cons_of_mem hmem
    rw [List.append_assoc, dropWhile_question hfront, dropWhile_question hfront]
    rfl
  · next hmem =>
    rw [dropWhile_question hmem]
    rfl

theorem parseQsl_append (query rest : PyStr) :
    parseQsl (query ++ 38 :: rest) = parseQsl query ++ parseQsl rest := by
  rw [parseQsl, List.splitOn_append_cons_self, List.filter_append, List.map_append]
  rfl

theorem parseQsl_part {part : PyStr} (h : 38 ∉ part) (hne : part ≠ []) :
    parseQsl part = [splitPair part] := by
  have hkeep : [part].filter (fun part => part ≠ []) = [part] := by simp [hne]
  rw [parseQsl, List.splitOn_eq_singleton h, hkeep, List.map_singleton]

theorem parseQsl_front (front : PyStr) (h : 38 ∉ front) (p : Bytes × Bytes)
    (params : List (Bytes × Bytes)) :
    parseQsl (front ++ urlencode (p :: params)) =
      splitPair (front ++ quotePair p) :: params.map textPair := by
  have hamp : ∀ {front : PyStr} (p : Bytes × Bytes), 38 ∉ front → 38 ∉ front ++ quotePair p := by
    intro front p hfront hmem
    rcases List.mem_append.mp hmem with hmem | hmem
    · exact hfront hmem
    · exact amp_not_mem_quotePair p hmem
  have hne : ∀ (front : PyStr) (p : Bytes × Bytes), front ++ quotePair p ≠ [] :=
    fun front p => List.append_ne_nil_of_right_ne_nil _ (quotePair_ne_nil p)
  induction params generalizing front p with
  | nil =>
    rw [urlencode, List.map_singleton, List.intercalate_singleton, parseQsl_part (hamp p h) (hne _ p)]
    rfl
  | cons q params ih =>
    have hsplit : urlencode (p :: q :: params) = quotePair p ++ 38 :: urlencode (q :: params) := by
      rw [urlencode, List.map_cons, List.map_cons, List.intercalate_cons_cons, List.append_assoc]
      rfl
    have hrest := ih [] List.not_mem_nil q
    rw [List.nil_append, List.nil_append, splitPair_pair] at hrest
    rw [hsplit, ← List.append_assoc, parseQsl_append, parseQsl_part (hamp p h) (hne _ p), hrest]
    rfl

theorem parseQsl_urlencode (params : List (Bytes × Bytes)) :
    parseQsl (urlencode params) = params.map textPair := by
  cases params with
  | nil => rfl
  | cons p params =>
    have hfront := parseQsl_front [] List.not_mem_nil p params
    rwa [List.nil_append, List.nil_append, splitPair_pair] at hfront

/-- Behind a second `?` the parameters are not read back after those before it. -/
theorem parseQsl_question (query : PyStr) (p : Bytes × Bytes) (params : List (Bytes × Bytes)) :
    parseQsl (query ++ 63 :: urlencode (p :: params)) ≠
      parseQsl query ++ (p :: params).map textPair := by
  induction hlength : query.length using Nat.strong_induction_on generalizing query with
  | h n ih =>
    by_cases hamp : 38 ∈ query
    · -- the parts before the first `&` are the same on both sides
      obtain ⟨part, rest, rfl, -⟩ := List.eq_append_cons_of_mem hamp
      have hrest := ih rest.length (by simp at hlength; omega) rest rfl
      rw [List.append_assoc, List.cons_append, parseQsl_append, parseQsl_append, List.append_assoc]
      exact fun heq => hrest (List.append_cancel_left heq)
    · have hfront : 38 ∉ query ++ [63] := by simpa using hamp
      have hquery : query ++ 63 :: urlencode (p :: params) =
          (query ++ [63]) ++ urlencode (p :: params) := (List.append_cons _ _ _)
      rw [hquery, parseQsl_front _ hfront]
      intro heq
      by_cases hnil : query = []
      · subst hnil
        have hname : 61 ∉ ([63] : PyStr) := by decide
        have hfirst := congrArg Prod.fst (List.cons.inj heq).1
        rw [List.nil_append, splitPair_quotePair _ hname, List.singleton_append,
          decodePart_question] at hfirst
        exact absurd (congrArg List.length hfirst) (by simp [textPair])
      · rw [parseQsl_part hamp hnil] at heq
        have hcount := congrArg List.length heq
        simp only [List.length_cons, List.length_append, List.length_map, List.length_nil] at hcount
        omega

end QueryStrings
