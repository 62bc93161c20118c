import Mathlib.Data.List.Basic

/-! # POSIX paths

Pure paths as `pathlib` has them. A string is a list of code points; a path is its root and its
parts, where empty parts and `.` have been dropped and `..` is kept. -/
namespace PosixPaths

abbrev Part := List ℕ

def slash : ℕ := 47
def dot : Part := [46]
def dotdot : Part := [46, 46]

inductive Root where
  | relative
  | slash
  /-- Exactly two leading slashes, which POSIX lets stand for something else. -/
  | doubleSlash
  deriving DecidableEq, Repr

structure PurePath where
  root : Root
  parts : List Part
  deriving DecidableEq, Repr

def rootOf : List ℕ → Root
  | 47 :: 47 :: 47 :: _ => .slash
  | 47 :: 47 :: _ => .doubleSlash
  | 47 :: _ => .slash
  | _ => .relative

def parse (s : List ℕ) : PurePath :=
  ⟨rootOf s, (s.splitOn slash).filter fun part => part ≠ [] ∧ part ≠ dot⟩

theorem rootOf_eq_relative {s : List ℕ} (h : slash ∉ s) : rootOf s = .relative := by
  unfold rootOf
  split
  · exact absurd (List.mem_cons_self ..) h
  · exact absurd (List.mem_cons_self ..) h
  · exact absurd (List.mem_cons_self ..) h
  · rfl

theorem parse_part {s : List ℕ} (h : slash ∉ s) (hne : s ≠ []) (hdot : s ≠ dot) :
    parse s = ⟨.relative, [s]⟩ := by
  have hsplit : s.splitOn slash = [s] := by
    apply List.splitOnP_eq_singleton
    intro x hx
    rw [beq_eq_false_iff_ne]
    rintro rfl
    exact h hx
  rw [parse, rootOf_eq_relative h, hsplit]
  simp [hne, hdot]

/-- `p / q`: an absolute `q` discards what precedes it. -/
def join (p q : PurePath) : PurePath :=
  if q.root = .relative then ⟨p.root, p.parts ++ q.parts⟩ else q

def ofSegments (segments : List (List ℕ)) : PurePath :=
  segments.foldl (fun p s => join p (parse s)) ⟨.relative, []⟩

theorem join_assoc (p q r : PurePath) : join (join p q) r = join p (join q r) := by
  unfold join
  by_cases hr : r.root = .relative
  · by_cases hq : q.root = .relative
    · simp [hr, hq]
    · simp [hr, hq]
  · simp [hr]

theorem join_relative {p q : PurePath} (h : q.root = .relative) :
    join p q = ⟨p.root, p.parts ++ q.parts⟩ := if_pos h

theorem join_absolute {p q : PurePath} (h : q.root ≠ .relative) : join p q = q := if_neg h

theorem foldl_join (p q : PurePath) (segments : List (List ℕ)) :
    segments.foldl (fun p s => join p (parse s)) (join p q) =
      join p (segments.foldl (fun p s => join p (parse s)) q) := by
  induction segments generalizing q with
  | nil => rfl
  | cons s rest ih =>
    rw [List.foldl_cons, List.foldl_cons, join_assoc]
    exact ih (join q (parse s))

theorem join_empty (p : PurePath) : join p ⟨.relative, []⟩ = p := by
  rw [join_relative rfl, List.append_nil]

theorem join_parse_ofSegments (p : PurePath) (s : List ℕ) (segments : List (List ℕ)) :
    join (join p (parse s)) (ofSegments segments) = join p (ofSegments (s :: segments)) := by
  rw [ofSegments, ofSegments, List.foldl_cons, ← foldl_join, ← foldl_join, join_empty, ← join_assoc,
    join_empty]

theorem ofSegments_parts {segments : List (List ℕ)}
    (h : ∀ s ∈ segments, slash ∉ s ∧ s ≠ [] ∧ s ≠ dot) :
    ofSegments segments = ⟨.relative, segments⟩ := by
  have hfold : ∀ p : PurePath, segments.foldl (fun p s => join p (parse s)) p =
      ⟨p.root, p.parts ++ segments⟩ := by
    induction segments with
    | nil =>
      intro p
      rw [List.foldl_nil, List.append_nil]
    | cons s rest ih =>
      intro p
      obtain ⟨hslash, hne, hdot⟩ := h s (List.mem_cons_self ..)
      rw [List.foldl_cons, ih fun t ht => h t (List.mem_cons_of_mem _ ht),
        parse_part hslash hne hdot, join_relative rfl, List.append_assoc, List.singleton_append]
  exact hfold ⟨.relative, []⟩

def pushPart (absolute : Bool) (stack : List Part) (part : Part) : List Part :=
  if part = dotdot then
    match stack.getLast? with
    | none => if absolute then [] else [dotdot]
    | some last => if last = dotdot then stack ++ [dotdot] else stack.dropLast
  else stack ++ [part]

def PurePath.isAbsolute (p : PurePath) : Bool := p.root ≠ .relative

def PurePath.normalParts (p : PurePath) : List Part := p.parts.foldl (pushPart p.isAbsolute) []

theorem foldl_pushPart_plain (absolute : Bool) {parts : List Part} (h : dotdot ∉ parts)
    (stack : List Part) : parts.foldl (pushPart absolute) stack = stack ++ parts := by
  induction parts generalizing stack with
  | nil => rw [List.foldl_nil, List.append_nil]
  | cons part parts ih =>
    rw [List.mem_cons, not_or] at h
    rw [List.foldl_cons, pushPart, if_neg (Ne.symm h.1), ih h.2, List.append_assoc,
      List.singleton_append]

/-- After normalisation `p` names something inside the directory `root`, not `root` itself. -/
def StrictlyBelow (root p : PurePath) : Prop :=
  p.root = root.root ∧ ∃ rest, rest ≠ [] ∧ dotdot ∉ rest ∧ p.normalParts = root.normalParts ++ rest

/-- Read from the left, the parts never go above their start and end below it. -/
def descends : ℕ → List Part → Bool
  | level, [] => 0 < level
  | level, part :: rest =>
    if part = dotdot then
      match level with
      | 0 => false
      | level + 1 => descends level rest
    else descends (level + 1) rest

theorem descends_cons (level : ℕ) (part : Part) (rest : List Part) :
    descends level (part :: rest) =
      if part = dotdot then
        match level with
        | 0 => false
        | level + 1 => descends level rest
      else descends (level + 1) rest := by
  cases level with
  | zero => rfl
  | succ level => rfl

theorem pushPart_above {absolute : Bool} (base : List Part) {acc : List Part} (hacc : dotdot ∉ acc)
    (hne : acc ≠ []) : pushPart absolute (base ++ acc) dotdot = base ++ acc.dropLast := by
  obtain ⟨init, last, rfl⟩ := List.eq_nil_or_concat' acc |>.resolve_left hne
  have hlast : last ≠ dotdot := by
    rintro rfl
    exact hacc (by simp)
  rw [pushPart, if_pos rfl, ← List.append_assoc, List.getLast?_concat]
  simp [hlast]

theorem foldl_pushPart_of_descends (absolute : Bool) (base acc : List Part) {parts : List Part}
    (hacc : dotdot ∉ acc) (h : descends acc.length parts = true) :
    ∃ rest, rest ≠ [] ∧ dotdot ∉ rest ∧
      parts.foldl (pushPart absolute) (base ++ acc) = base ++ rest := by
  induction parts generalizing acc with
  | nil =>
    refine ⟨acc, ?_, hacc, rfl⟩
    rintro rfl
    simp [descends] at h
  | cons part parts ih =>
    rw [List.foldl_cons]
    by_cases hpart : part = dotdot
    · rw [descends_cons, if_pos hpart] at h
      cases hlen : acc.length with
      | zero => simp [hlen] at h
      | succ level =>
        have hne : acc ≠ [] := by
          rintro rfl
          cases hlen
        rw [hlen] at h
        rw [hpart, pushPart_above base hacc hne]
        refine ih _ (fun hm => hacc (List.dropLast_subset _ hm)) ?_
        rw [List.length_dropLast, hlen]
        exact h
    · rw [descends_cons, if_neg hpart] at h
      rw [pushPart, if_neg hpart, List.append_assoc]
      refine ih _ ?_ ?_
      · simp only [List.mem_append, List.mem_singleton, not_or]
        exact ⟨hacc, fun heq => hpart heq.symm⟩
      · rw [List.length_append, List.length_singleton]
        exact h

/-- Nothing that is neither on the stack nor among the parts comes onto the stack. -/
theorem notMem_foldl_pushPart (absolute : Bool) {q : Part} (hq : q ≠ dotdot) {stack : List Part}
    {parts : List Part} (hstack : q ∉ stack) (hparts : q ∉ parts) :
    q ∉ parts.foldl (pushPart absolute) stack := by
  induction parts generalizing stack with
  | nil => exact hstack
  | cons part parts ih =>
    rw [List.foldl_cons]
    rw [List.mem_cons, not_or] at hparts
    refine ih ?_ hparts.2
    unfold pushPart
    split
    · split
      · split
        · exact List.not_mem_nil
        · simpa using hq
      · split
        · simpa using ⟨hstack, hq⟩
        · intro hm
          exact hstack (List.dropLast_subset _ hm)
    · simpa using ⟨hstack, hparts.1⟩

/-- Below a directory whose name does not occur among the parts, parts that do not descend end
outside of it or at it. -/
theorem foldl_pushPart_of_not_descends {q : Part} (hq : q ≠ dotdot) (acc : List Part)
    {parts rest : List Part} (hacc : dotdot ∉ acc) (hqacc : q ∉ acc) (hqparts : q ∉ parts)
    (h : descends acc.length parts = false)
    (heq : parts.foldl (pushPart true) (q :: acc) = q :: rest) : rest = [] := by
  induction parts generalizing acc with
  | nil =>
    have hlen : acc.length = 0 := by simpa [descends] using h
    obtain rfl := List.eq_nil_of_length_eq_zero hlen
    exact (List.cons.inj heq).2.symm
  | cons part parts ih =>
    rw [List.foldl_cons] at heq
    rw [List.mem_cons, not_or] at hqparts
    by_cases hpart : part = dotdot
    · rw [descends_cons, if_pos hpart] at h
      cases hlen : acc.length with
      | zero =>
        -- the name of the directory is popped and never comes back
        obtain rfl := List.eq_nil_of_length_eq_zero hlen
        have hpop : pushPart true [q] part = [] := by
          rw [pushPart, if_pos hpart]
          simp [hq]
        rw [hpop] at heq
        have hnot := notMem_foldl_pushPart true hq List.not_mem_nil hqparts.2
        rw [heq] at hnot
        exact absurd (List.mem_cons_self ..) hnot
      | succ level =>
        have hne : acc ≠ [] := by
          rintro rfl
          cases hlen
        rw [hlen] at h
        have hpop : pushPart true (q :: acc) part = q :: acc.dropLast := by
          rw [hpart]
          exact pushPart_above [q] hacc hne
        rw [hpop] at heq
        refine ih _ (fun hm => hacc (List.dropLast_subset _ hm))
          (fun hm => hqacc (List.dropLast_subset _ hm)) hqparts.2 ?_ heq
        rw [List.length_dropLast, hlen]
        exact h
    · rw [descends_cons, if_neg hpart] at h
      rw [pushPart, if_neg hpart, List.cons_append] at heq
      refine ih _ ?_ ?_ hqparts.2 ?_ heq
      · simp only [List.mem_append, List.mem_singleton, not_or]
        exact ⟨hacc, fun heq => hpart heq.symm⟩
      · simp only [List.mem_append, List.mem_singleton, not_or]
        exact ⟨hqacc, hqparts.1⟩
      · rw [List.length_append, List.length_singleton]
        exact h

theorem strictlyBelow_of_descends (root : PurePath) {q : PurePath} (hrel : q.root = .relative)
    (h : descends 0 q.parts = true) : StrictlyBelow root (join root q) := by
  obtain ⟨rest, hne, hup, heq⟩ :=
    foldl_pushPart_of_descends root.isAbsolute root.normalParts [] List.not_mem_nil h
  rw [join_relative hrel]
  refine ⟨rfl, rest, hne, hup, ?_⟩
  rw [List.append_nil] at heq
  rw [← heq, PurePath.normalParts, List.foldl_append]
  rfl

def freshPart (parts : List Part) : Part := List.replicate (parts.flatten.length + 1) 97

theorem freshPart_notMem (parts : List Part) : freshPart parts ∉ parts := by
  intro hm
  have hle := (List.sublist_flatten_of_mem hm).length_le
  rw [freshPart, List.length_replicate] at hle
  omega

theorem parse_freshPart (parts : List Part) :
    parse (slash :: freshPart parts) = ⟨.slash, [freshPart parts]⟩ := by
  have hsplit : (slash :: freshPart parts).splitOn slash = [[], freshPart parts] := by
    have hno : ∀ x ∈ freshPart parts, (x == slash) = false := by
      intro x hx
      rw [List.eq_of_mem_replicate hx]
      rfl
    rw [List.splitOn, List.splitOnP_cons_eq_if_modifyHead, List.splitOnP_eq_singleton hno]
    rfl
  have hdot : freshPart parts ≠ dot := by
    intro heq
    have := congrArg (fun l => l.head?) heq
    simp [freshPart, List.replicate_succ, dot] at this
  have hnil : freshPart parts ≠ [] := by simp [freshPart]
  have hroot : rootOf (slash :: freshPart parts) = .slash := by
    rw [freshPart, List.replicate_succ]
    rfl
  rw [parse, hsplit, hroot]
  simp [hdot, hnil]

/-- Parts that do not descend, and absolute paths, leave some root directory. -/
theorem exists_root_not_strictlyBelow {q : PurePath}
    (h : ¬ (q.root = .relative ∧ descends 0 q.parts = true)) :
    ∃ root : List ℕ, (∀ part ∈ (parse root).parts, 0 ∉ part) ∧
      ¬ StrictlyBelow (parse root) (join (parse root) q) := by
  have hfresh := freshPart_notMem q.parts
  have hup : freshPart q.parts ≠ dotdot := by
    intro heq
    have := congrArg (fun l => l.head?) heq
    simp [freshPart, List.replicate_succ, dotdot] at this
  refine ⟨slash :: freshPart q.parts, ?_, ?_⟩
  · rw [parse_freshPart]
    simp [freshPart]
  rw [parse_freshPart]
  rintro ⟨hroot, rest, hne, hno, heq⟩
  have hbase : PurePath.normalParts ⟨.slash, [freshPart q.parts]⟩ = [freshPart q.parts] := by
    simp [PurePath.normalParts, pushPart, hup]
  rw [hbase] at heq
  by_cases hrel : q.root = .relative
  · have hdesc : descends 0 q.parts = false := by
      simpa [hrel] using h
    rw [join_relative hrel, PurePath.normalParts, List.foldl_append] at heq
    have hend : q.parts.foldl (pushPart true)
        (PurePath.normalParts ⟨.slash, [freshPart q.parts]⟩) = freshPart q.parts :: rest := heq
    rw [hbase] at hend
    exact hne (foldl_pushPart_of_not_descends hup [] List.not_mem_nil List.not_mem_nil hfresh hdesc
      hend)
  · rw [join_absolute hrel] at heq
    have hnot := notMem_foldl_pushPart q.isAbsolute hup List.not_mem_nil hfresh
    unfold PurePath.normalParts at heq
    rw [heq] at hnot
    exact hnot (by simp)

end PosixPaths
