import Asenal.Lib.Text
import Mathlib.Data.List.Basic
import Mathlib.Data.List.Flatten
import Mathlib.Data.List.Induction

/-!
# Paths and their segments

A path is a list that is cut into segments by a separator `slash`; `dot` is the symbol of the two
segments that are not names, the one for "here" and the one for "up". `cleanSegs` resolves these:
a stack of names, on which "up" takes the top away. Nothing here knows what symbols are: the text
of a path and its tokens are two instances, and `pathText_flatMap` and `cleanSegs_map` carry one to
the other.

* `pathText_split`, `splitOn_pathText` — every path is the text of its segments.
* `exists_ends`, `endOf_append` — where the segments of a path end.
* `cleanSegs_resolved`, `resolved_of_mark` — what stands behind a name, and behind a mark in it.
* `cleanSegs_cleanSegs` — a clean path is clean.
* `length_pathText_cleanSegs` — cleaning makes no path longer.
-/

namespace Asenal.Lib.Segments

variable {α β : Type*}

/-! ## Texts -/

/-- The text of segments: each one behind a separator. -/
def pathText (slash : α) (segs : List (List α)) : List α := segs.flatMap (slash :: ·)

@[simp] theorem pathText_nil (slash : α) : pathText slash [] = [] := rfl

@[simp] theorem pathText_cons (slash : α) (s : List α) (segs : List (List α)) :
    pathText slash (s :: segs) = slash :: (s ++ pathText slash segs) := rfl

@[simp] theorem pathText_append (slash : α) (segs segs' : List (List α)) :
    pathText slash (segs ++ segs') = pathText slash segs ++ pathText slash segs' :=
  List.flatMap_append

/-- The text of segments, with the separators between them. -/
theorem pathText_eq (slash : α) {segs : List (List α)} (h : segs ≠ []) :
    pathText slash segs = slash :: [slash].intercalate segs := by
  induction segs with
  | nil => exact absurd rfl h
  | cons s segs ih =>
      cases segs with
      | nil => simp
      | cons t segs =>
          rw [pathText_cons, ih (List.cons_ne_nil t segs), List.intercalate_cons_cons]
          simp

/-- **Every path is the text of its segments.** -/
theorem pathText_split [DecidableEq α] (slash : α) (p : List α) :
    slash :: p = pathText slash (p.splitOn slash) := by
  rw [pathText_eq slash (List.splitOn_ne_nil slash p), List.intercalate_splitOn]

/-- Segments do not contain the separator. -/
theorem not_mem_split [DecidableEq α] {slash : α} {p s : List α} (h : s ∈ p.splitOn slash) :
    slash ∉ s := by
  induction p generalizing s with
  | nil =>
      rw [List.splitOn_nil, List.mem_singleton] at h
      rw [h]
      exact List.not_mem_nil
  | cons a p ih =>
      obtain ⟨t, ts, hts⟩ := List.exists_cons_of_ne_nil (List.splitOn_ne_nil slash p)
      rw [List.splitOn_cons_eq_if_modifyHead, hts] at h
      rw [hts] at ih
      by_cases ha : a = slash
      · rw [if_pos (beq_iff_eq.mpr ha), List.mem_cons] at h
        rcases h with rfl | h
        · exact List.not_mem_nil
        · exact ih h
      · rw [if_neg (by simpa using ha), List.modifyHead_cons, List.mem_cons] at h
        rcases h with rfl | h
        · rw [List.mem_cons, not_or]
          exact ⟨Ne.symm ha, ih List.mem_cons_self⟩
        · exact ih (List.mem_cons_of_mem _ h)

/-- What is in a segment is in the path. -/
theorem mem_of_mem_split [DecidableEq α] {slash a : α} {p s : List α} (h : s ∈ p.splitOn slash)
    (ha : a ∈ s) : a ∈ p := by
  have hne : a ≠ slash := ne_of_mem_of_not_mem ha (not_mem_split h)
  have hmem : a ∈ pathText slash (p.splitOn slash) :=
    List.mem_flatMap.mpr ⟨s, h, List.mem_cons_of_mem _ ha⟩
  rw [← pathText_split, List.mem_cons] at hmem
  exact hmem.resolve_left hne

/-- The segments of a text of segments. -/
theorem splitOn_pathText [DecidableEq α] {slash : α} {segs : List (List α)} (hne : segs ≠ [])
    (h : ∀ s ∈ segs, slash ∉ s) : (pathText slash segs).tail.splitOn slash = segs := by
  rw [pathText_eq slash hne, List.tail_cons, List.splitOn_intercalate slash h hne]

/-- Behind a separator a segment begins, if none is empty. -/
theorem head_behind_slash {slash : α} {segs : List (List α)} (h : ∀ s ∈ segs, s ≠ [] ∧ slash ∉ s)
    {a b : List α} (heq : pathText slash segs = a ++ slash :: b) : ∃ c, b.head? = some c ∧ c ≠ slash := by
  induction segs generalizing a with
  | nil => exact absurd heq (List.append_ne_nil_of_right_ne_nil a (List.cons_ne_nil slash b)).symm
  | cons s segs ih =>
      rw [List.forall_mem_cons] at h
      obtain ⟨⟨hne, hfree⟩, hsegs⟩ := h
      rw [pathText_cons] at heq
      cases a with
      | nil =>
          obtain ⟨c, t, rfl⟩ := List.exists_cons_of_ne_nil hne
          obtain rfl := (List.cons.inj heq).2
          exact ⟨c, rfl, fun hc => hfree (hc ▸ List.mem_cons_self)⟩
      | cons d a =>
          rcases List.append_eq_append_iff.mp (List.cons.inj heq).2 with ⟨r, -, hr⟩ | ⟨r, rfl, hr⟩
          · exact ih hsegs hr
          · cases r with
            | nil => exact ih (a := []) hsegs hr.symm
            | cons e r =>
                obtain ⟨rfl, -⟩ := List.cons.inj hr
                exact absurd (List.mem_append_right a List.mem_cons_self) hfree

/-- Segments are known from their text. -/
theorem pathText_inj [DecidableEq α] {slash : α} {segs segs' : List (List α)} (h : ∀ s ∈ segs, slash ∉ s)
    (h' : ∀ s ∈ segs', slash ∉ s) (heq : pathText slash segs = pathText slash segs') : segs = segs' := by
  cases segs with
  | nil =>
      cases segs' with
      | nil => rfl
      | cons s segs' => cases heq
  | cons s segs =>
      cases segs' with
      | nil => cases heq
      | cons s' segs' =>
          rw [← splitOn_pathText (List.cons_ne_nil s segs) h, heq,
            splitOn_pathText (List.cons_ne_nil s' segs') h']

/-- The segments around a symbol that is no separator. -/
theorem splitOn_append_cons [DecidableEq α] {slash a : α} (ha : a ≠ slash) {p q x s : List α}
    {init rest : List (List α)} (hp : p.splitOn slash = init ++ [x]) (hq : q.splitOn slash = s :: rest) :
    (p ++ a :: q).splitOn slash = init ++ (x ++ a :: s) :: rest := by
  have hpfree : ∀ t ∈ init ++ [x], slash ∉ t := fun t ht => not_mem_split (hp ▸ ht)
  have hqfree : ∀ t ∈ s :: rest, slash ∉ t := fun t ht => not_mem_split (hq ▸ ht)
  have hptext : slash :: p = pathText slash init ++ slash :: x := by
    rw [pathText_split, hp]
    simp
  have hqtext : q = s ++ pathText slash rest := by
    have htext := pathText_split slash q
    rw [hq] at htext
    exact (List.cons.inj htext).2
  have htext : slash :: (p ++ a :: q) = pathText slash (init ++ (x ++ a :: s) :: rest) := by
    rw [← List.cons_append, hptext, hqtext]
    simp
  have hfree : ∀ t ∈ init ++ (x ++ a :: s) :: rest, slash ∉ t := by
    simp only [List.mem_append, List.mem_cons, List.not_mem_nil, or_false] at hpfree hqfree ⊢
    rintro t (ht | rfl | ht)
    · exact hpfree t (Or.inl ht)
    · simp only [List.mem_append, List.mem_cons, not_or]
      exact ⟨hpfree x (Or.inr rfl), Ne.symm ha, hqfree s (Or.inl rfl)⟩
    · exact hqfree t (Or.inr ht)
  have hsplit := splitOn_pathText (by simp) hfree
  rwa [← htext, List.tail_cons] at hsplit

/-- A pattern without `c` is not found across a `c`. -/
theorem infix_append_cons_iff {c : α} {n : List α} (h : c ∉ n) (x y : List α) :
    n <:+: x ++ c :: y ↔ n <:+: x ∨ n <:+: y := by
  constructor
  · intro hin
    induction x with
    | nil =>
        rw [List.nil_append, List.infix_cons_iff] at hin
        rcases hin with hstart | hin
        · cases n with
          | nil => exact Or.inl List.infix_rfl
          | cons a n =>
              rw [List.cons_prefix_cons] at hstart
              exact absurd (hstart.1 ▸ List.mem_cons_self) h
        · exact Or.inr hin
    | cons a x ih =>
        rw [List.cons_append, List.infix_cons_iff] at hin
        rcases hin with hstart | hin
        · have hx : a :: x <+: a :: (x ++ c :: y) := List.prefix_append (a :: x) (c :: y)
          rcases Nat.le_total n.length (a :: x).length with hle | hle
          · exact Or.inl (List.prefix_of_prefix_length_le hstart hx hle).isInfix
          · obtain ⟨r, rfl⟩ := List.prefix_of_prefix_length_le hx hstart hle
            cases r with
            | nil => exact Or.inl (by simp)
            | cons b r =>
                have hb : b :: r <+: c :: y := by
                  simpa [List.prefix_append_right_inj] using hstart
                rw [List.cons_prefix_cons] at hb
                exact absurd (List.mem_append_right _ (hb.1 ▸ List.mem_cons_self)) h
        · exact (ih hin).imp_left List.infix_cons
  · rintro (hin | hin)
    · exact hin.trans (List.prefix_append x (c :: y)).isInfix
    · exact (List.infix_cons hin).trans (List.suffix_append x (c :: y)).isInfix

/-- A pattern without a separator is found in the text of segments iff it is found in one. -/
theorem infix_pathText_iff {slash : α} {n : List α} (h : slash ∉ n) (hne : n ≠ [])
    (segs : List (List α)) : n <:+: pathText slash segs ↔ ∃ s ∈ segs, n <:+: s := by
  induction segs using List.reverseRecOn with
  | nil => simp [hne]
  | append_singleton segs s ih =>
      rw [pathText_append, pathText_cons, pathText_nil, List.append_nil, infix_append_cons_iff h, ih]
      simp [or_and_right, exists_or]

/-! ## Where the segments end -/

/-- The segments end at the first `query`, or else at the first `param`. -/
structure Ends (query param : α) (body suffix : List α) : Prop where
  body_query : query ∉ body
  rest : suffix.head? = some query ∨
    query ∉ suffix ∧ param ∉ body ∧ ∀ a ∈ suffix.head?, a = param

/-- What is in the segments ends where they do. -/
theorem Ends.subset {query param : α} {body body' suffix : List α} (h : Ends query param body suffix)
    (hsub : body' ⊆ body) : Ends query param body' suffix :=
  ⟨fun hmem => h.body_query (hsub hmem), h.rest.imp_right fun hrest =>
    ⟨hrest.1, fun hmem => hrest.2.1 (hsub hmem), hrest.2.2⟩⟩

/-- The segments of every path end somewhere. -/
theorem exists_ends [DecidableEq α] (query param : α) (p : List α) :
    ∃ body suffix, p = body ++ suffix ∧ Ends query param body suffix := by
  by_cases hquery : query ∈ p
  · obtain ⟨body, suffix, rfl, hbody⟩ := List.eq_append_cons_of_mem hquery
    exact ⟨body, query :: suffix, rfl, hbody, Or.inl rfl⟩
  by_cases hparam : param ∈ p
  · obtain ⟨body, suffix, rfl, hbody⟩ := List.eq_append_cons_of_mem hparam
    rw [List.mem_append, not_or] at hquery
    exact ⟨body, param :: suffix, rfl, hquery.1, Or.inr ⟨hquery.2, hbody, by simp⟩⟩
  · exact ⟨p, [], (List.append_nil p).symm, hquery, Or.inr ⟨List.not_mem_nil, hparam, by simp⟩⟩

/-- Where the segments end, as a length. -/
def endOf [DecidableEq α] (query param : α) (p : List α) : ℕ :=
  if query ∈ p then p.idxOf query else p.idxOf param

/-- The length of what is in front of the end. -/
theorem endOf_append [DecidableEq α] {query param : α} {body suffix : List α}
    (h : Ends query param body suffix) : endOf query param (body ++ suffix) = body.length := by
  have hcons : ∀ a : α, suffix.head? = some a → suffix.idxOf a = 0 := by
    intro a ha
    cases suffix with
    | nil => cases ha
    | cons b t =>
        cases ha
        exact List.idxOf_cons_self
  unfold endOf
  obtain ⟨hbody, hquery | ⟨hquery, hparam, hhead⟩⟩ := h
  · rw [if_pos (List.mem_append_right _ (List.mem_of_mem_head? hquery)),
      List.idxOf_append_of_notMem hbody, hcons query hquery, Nat.add_zero]
  · rw [if_neg (by rw [List.mem_append, not_or]; exact ⟨hbody, hquery⟩),
      List.idxOf_append_of_notMem hparam]
    cases suffix with
    | nil => rfl
    | cons b t => rw [hhead b rfl, List.idxOf_cons_self, Nat.add_zero]

/-! ## The stack -/

section Stack

variable [DecidableEq α] (dot : α)

/-- A segment that is a name. -/
def IsName (s : List α) : Prop := s ≠ [] ∧ s ≠ [dot] ∧ s ≠ [dot, dot]

instance decidableIsName (s : List α) : Decidable (IsName dot s) :=
  inferInstanceAs (Decidable (_ ∧ _ ∧ _))

variable {dot} in
omit [DecidableEq α] in
/-- A segment with another symbol than `dot` is a name. -/
theorem isName_of_mem {a : α} {s : List α} (h : a ∈ s) (hne : a ≠ dot) : IsName dot s := by
  refine ⟨List.ne_nil_of_mem h, ?_, ?_⟩
  · rintro rfl
    exact hne (List.mem_singleton.mp h)
  · rintro rfl
    simp [hne] at h

/-- What a segment does to the stack of names, whose top comes first. -/
def push (stack : List (List α)) (s : List α) : List (List α) :=
  if IsName dot s then s :: stack else if s = [dot, dot] then stack.tail else stack

/-- What stands behind the last name: an empty segment unless the path ends in a name. -/
def trail (segs : List (List α)) : List (List α) :=
  if IsName dot (segs.getLastD []) then [] else [[]]

/-- The segments of the clean path. -/
def cleanSegs (segs : List (List α)) : List (List α) :=
  (segs.foldl (push dot) []).reverse ++ trail dot segs

variable {dot}

/-- A name is pushed. -/
theorem push_of_isName {s : List α} (h : IsName dot s) (stack : List (List α)) :
    push dot stack s = s :: stack := if_pos h

/-- Only names that are there or are pushed are on the stack. -/
theorem mem_push {stack : List (List α)} {s t : List α} (h : t ∈ push dot stack s) :
    t ∈ stack ∨ (t = s ∧ IsName dot s) := by
  unfold push at h
  split_ifs at h with hname hup
  · rcases List.mem_cons.mp h with rfl | h
    · exact Or.inr ⟨rfl, hname⟩
    · exact Or.inl h
  · exact Or.inl (List.mem_of_mem_tail h)
  · exact Or.inl h

/-- What is on the stack behind segments was there or is a name among them. -/
theorem mem_foldl_push {segs stack : List (List α)} {t : List α}
    (h : t ∈ segs.foldl (push dot) stack) : t ∈ stack ∨ (t ∈ segs ∧ IsName dot t) := by
  induction segs generalizing stack with
  | nil => exact Or.inl h
  | cons s segs ih =>
      rcases ih h with h | ⟨h, hname⟩
      · rcases mem_push h with h | ⟨rfl, hname⟩
        · exact Or.inl h
        · exact Or.inr ⟨List.mem_cons_self, hname⟩
      · exact Or.inr ⟨List.mem_cons_of_mem _ h, hname⟩

/-- What stands behind the last name is empty. -/
theorem eq_nil_of_mem_trail {segs : List (List α)} {t : List α} (h : t ∈ trail dot segs) : t = [] := by
  unfold trail at h
  split_ifs at h
  · cases h
  · exact List.mem_singleton.mp h

/-- A segment of the clean path is a name of the path, or empty and the last one. -/
theorem mem_cleanSegs {segs : List (List α)} {t : List α} (h : t ∈ cleanSegs dot segs) :
    (t ∈ segs ∧ IsName dot t) ∨ t = [] := by
  rcases List.mem_append.mp h with h | h
  · exact Or.inl ((mem_foldl_push (List.mem_reverse.mp h)).resolve_left List.not_mem_nil)
  · exact Or.inr (eq_nil_of_mem_trail h)

/-- What a clean path is written with. -/
theorem mem_pathText_cleanSegs {slash b : α} {p : List α}
    (h : b ∈ pathText slash (cleanSegs dot (p.splitOn slash))) : b = slash ∨ b ∈ p := by
  obtain ⟨s, hs, hb⟩ := List.mem_flatMap.mp h
  rcases List.mem_cons.mp hb with rfl | hb
  · exact Or.inl rfl
  rcases mem_cleanSegs hs with ⟨hs, -⟩ | rfl
  · exact Or.inr (mem_of_mem_split hs hb)
  · cases hb

/-- Names are pushed one after another. -/
theorem foldl_push_names {names : List (List α)} (h : ∀ s ∈ names, IsName dot s)
    (stack : List (List α)) : names.foldl (push dot) stack = names.reverse ++ stack := by
  induction names generalizing stack with
  | nil => rfl
  | cons s names ih =>
      rw [List.forall_mem_cons] at h
      rw [List.foldl_cons, push_of_isName h.1, ih h.2, List.reverse_cons, List.append_assoc]
      rfl

/-- The names on the stack. -/
theorem isName_of_mem_foldl {segs : List (List α)} {t : List α}
    (h : t ∈ segs.foldl (push dot) []) : IsName dot t :=
  ((mem_foldl_push h).resolve_left List.not_mem_nil).2

variable (dot) in
/-- A clean path has a segment. -/
theorem cleanSegs_ne_nil (segs : List (List α)) : cleanSegs dot segs ≠ [] := by
  unfold cleanSegs trail
  split_ifs with h
  · rw [List.append_nil, ne_eq, List.reverse_eq_nil_iff]
    rcases List.eq_nil_or_concat segs with rfl | ⟨init, s, rfl⟩
    · exact absurd rfl h.1
    · rw [List.concat_eq_append, List.getLastD_concat] at h
      rw [List.concat_eq_append, List.foldl_append, List.foldl_cons, List.foldl_nil,
        push_of_isName h]
      exact List.cons_ne_nil _ _
  · exact List.append_ne_nil_of_right_ne_nil _ (List.cons_ne_nil _ _)

/-- **A clean path is clean.** -/
theorem cleanSegs_cleanSegs (segs : List (List α)) :
    cleanSegs dot (cleanSegs dot segs) = cleanSegs dot segs := by
  have hnames : ∀ s ∈ (segs.foldl (push dot) []).reverse, IsName dot s := by
    intro s hs
    exact isName_of_mem_foldl (List.mem_reverse.mp hs)
  have hne := cleanSegs_ne_nil dot segs
  unfold cleanSegs at hne ⊢
  generalize (segs.foldl (push dot) []).reverse = names at hnames hne ⊢
  unfold trail at hne ⊢
  by_cases hlast : IsName dot (segs.getLastD [])
  · rw [if_pos hlast, List.append_nil] at hne ⊢
    rw [foldl_push_names hnames, List.append_nil, List.reverse_reverse, if_pos, List.append_nil]
    rw [List.getLastD_eq_getLast?, List.getLast?_eq_some_getLast hne]
    exact hnames _ (List.getLast_mem hne)
  · have hempty : push dot names.reverse [] = names.reverse := by
      unfold push IsName
      simp
    rw [if_neg hlast, List.foldl_append, foldl_push_names hnames, List.append_nil, List.foldl_cons,
      List.foldl_nil, hempty, List.reverse_reverse, List.getLastD_concat, if_neg fun h => h.1 rfl]

/-! ## Lengths -/

variable (dot) in
/-- The stack is not longer than the segments that made it. -/
theorem length_pathText_foldl (slash : α) (segs stack : List (List α)) :
    (pathText slash (segs.foldl (push dot) stack).reverse).length ≤
      (pathText slash stack.reverse).length + (pathText slash segs).length := by
  induction segs generalizing stack with
  | nil => simp
  | cons s segs ih =>
      have hrest := ih (push dot stack s)
      have hpush : (pathText slash (push dot stack s).reverse).length ≤
          (pathText slash stack.reverse).length + (s.length + 1) := by
        unfold push
        split_ifs
        · simp
        · cases stack with
          | nil => simp
          | cons t stack =>
              simp only [List.tail_cons, List.reverse_cons, pathText_append, List.length_append]
              omega
        · omega
      simp only [List.foldl_cons, pathText_cons, List.length_cons, List.length_append] at hrest ⊢
      omega

variable (dot) in
/-- **Cleaning makes no path longer.** -/
theorem length_pathText_cleanSegs (slash : α) {segs : List (List α)} (hne : segs ≠ []) :
    (pathText slash (cleanSegs dot segs)).length ≤ (pathText slash segs).length := by
  rcases List.eq_nil_or_concat segs with rfl | ⟨init, s, rfl⟩
  · exact absurd rfl hne
  rw [List.concat_eq_append]
  unfold cleanSegs trail
  rw [List.getLastD_concat]
  split_ifs with hs
  · have h := length_pathText_foldl dot slash (init ++ [s]) []
    simpa using h
  · have h := length_pathText_foldl dot slash init []
    have hpush : ∀ stack : List (List α), (pathText slash (push dot stack s).reverse).length ≤
        (pathText slash stack.reverse).length := by
      intro stack
      unfold push
      rw [if_neg hs]
      split_ifs
      · cases stack with
        | nil => exact Nat.le_refl _
        | cons t stack =>
            simp only [List.tail_cons, List.reverse_cons, pathText_append, List.length_append]
            omega
      · exact Nat.le_refl _
    have hpush := hpush (init.foldl (push dot) [])
    simp only [List.foldl_append, List.foldl_cons, List.foldl_nil, pathText_append,
      List.length_append, pathText_cons, pathText_nil, List.reverse_nil, List.length_nil,
      List.length_cons] at h ⊢
    omega

end Stack

/-! ## What stands behind a name -/

/-- Segments that stay as they are behind a name: none is "here" or "up", and only the last one may
be empty. -/
def Resolved (dot : α) (segs : List (List α)) : Prop :=
  (∀ s ∈ segs, s ≠ [dot] ∧ s ≠ [dot, dot]) ∧ ∀ s ∈ segs.dropLast, s ≠ []

section Behind

variable [DecidableEq α] {dot : α}

instance decidableResolved (dot : α) (segs : List (List α)) : Decidable (Resolved dot segs) :=
  inferInstanceAs (Decidable (_ ∧ _))

variable (dot) in
/-- A segment adds at most its own weight to the stack. -/
theorem sum_push_le (w : List α → ℕ) (stack : List (List α)) (s : List α) :
    ((push dot stack s).map w).sum ≤ (stack.map w).sum + w s := by
  unfold push
  split_ifs
  · rw [List.map_cons, List.sum_cons]
    exact Nat.le_of_eq (Nat.add_comm _ _)
  · cases stack with
    | nil => exact Nat.zero_le _
    | cons t stack =>
        rw [List.tail_cons, List.map_cons, List.sum_cons]
        omega
  · exact Nat.le_add_right _ _

/-- Either the name `n` stays on the stack, with names above it, or it is taken off, and what it has of any
weight is gone. -/
theorem foldl_push_above (n : List α) (stack segs : List (List α)) :
    (∃ top, segs.foldl (push dot) (n :: stack) = top ++ n :: stack ∧ ∀ s ∈ top, s ∈ segs ∧ IsName dot s) ∨
      ∀ w : List α → ℕ, ((segs.foldl (push dot) (n :: stack)).map w).sum ≤
        (stack.map w).sum + (segs.map w).sum := by
  induction segs using List.reverseRecOn with
  | nil => exact Or.inl ⟨[], rfl, by simp⟩
  | append_singleton segs s ih =>
      rw [List.foldl_append, List.foldl_cons, List.foldl_nil]
      rcases ih with ⟨top, htop, hnames⟩ | hgone
      · have hnames : ∀ t ∈ top, t ∈ segs ++ [s] ∧ IsName dot t :=
          fun t ht => ⟨List.mem_append_left [s] (hnames t ht).1, (hnames t ht).2⟩
        rw [htop]
        unfold push
        split_ifs with hs hup
        · refine Or.inl ⟨s :: top, rfl, ?_⟩
          rw [List.forall_mem_cons]
          exact ⟨⟨List.mem_append_right segs (List.mem_singleton_self s), hs⟩, hnames⟩
        · cases top with
          | nil =>
              apply Or.inr
              intro w
              exact Nat.le_add_right _ _
          | cons t top => exact Or.inl ⟨top, rfl, (List.forall_mem_cons.mp hnames).2⟩
        · exact Or.inl ⟨top, rfl, hnames⟩
      · apply Or.inr
        intro w
        have hw := hgone w
        have hpush := sum_push_le dot w (segs.foldl (push dot) (n :: stack)) s
        rw [List.map_append, List.sum_append, List.map_singleton, List.sum_singleton]
        omega

/-- What is resolved is names, and what stands behind them. -/
theorem resolved_append_trail {names segs : List (List α)} (h : ∀ s ∈ names, IsName dot s) :
    Resolved dot (names ++ trail dot segs) := by
  unfold trail
  split_ifs
  · rw [List.append_nil]
    exact ⟨fun s hs => (h s hs).2, fun s hs => (h s (List.dropLast_subset names hs)).1⟩
  · constructor
    · intro s hs
      rcases List.mem_append.mp hs with hs | hs
      · exact (h s hs).2
      · rw [List.mem_singleton.mp hs]
        exact ⟨(List.cons_ne_nil _ _).symm, (List.cons_ne_nil _ _).symm⟩
    · intro s hs
      rw [List.dropLast_concat] at hs
      exact (h s hs).1

/-- **Resolved segments behind a name** stay as they are. -/
theorem cleanSegs_resolved {n : List α} (hn : IsName dot n) (init : List (List α)) {segs : List (List α)}
    (h : Resolved dot segs) : cleanSegs dot (init ++ n :: segs) =
      (init.foldl (push dot) []).reverse ++ n :: segs := by
  have hfold : ∀ names : List (List α), (∀ s ∈ names, IsName dot s) →
      (init ++ n :: names).foldl (push dot) [] = names.reverse ++ n :: init.foldl (push dot) [] := by
    intro names hnames
    rw [List.foldl_append, List.foldl_cons, push_of_isName hn, foldl_push_names hnames]
  rcases List.eq_nil_or_concat segs with rfl | ⟨names, s, rfl⟩
  · rw [cleanSegs, hfold [] (by simp), trail, List.getLastD_concat, if_pos hn]
    simp
  · rw [List.concat_eq_append] at h ⊢
    have hnames : ∀ t ∈ names, IsName dot t := by
      intro t ht
      obtain ⟨hone, htwo⟩ := h.1 t (List.mem_append_left [s] ht)
      exact ⟨h.2 t (by rwa [List.dropLast_concat]), hone, htwo⟩
    have hlast : (init ++ n :: (names ++ [s])).getLastD [] = s := by
      rw [← List.cons_append, ← List.append_assoc, List.getLastD_concat]
    rw [cleanSegs, trail, hlast]
    by_cases hs : IsName dot s
    · rw [if_pos hs, hfold _ (by simpa [or_imp, forall_and] using ⟨hnames, hs⟩)]
      simp
    · obtain ⟨hone, htwo⟩ := h.1 s (List.mem_append_right names (List.mem_singleton_self s))
      have hnil : s = [] := by
        by_contra hnil
        exact hs ⟨hnil, hone, htwo⟩
      have hpush : ∀ stack, push dot stack s = stack := by
        intro stack
        rw [push, if_neg hs, if_neg htwo]
      rw [if_neg hs, ← List.cons_append, ← List.append_assoc, List.foldl_append, hfold names hnames,
        List.foldl_cons, List.foldl_nil, hpush, hnil]
      simp

/-- What a text of segments has of a symbol that is no separator. -/
theorem count_pathText {slash a : α} (h : a ≠ slash) (segs : List (List α)) :
    (pathText slash segs).count a = (segs.map (List.count a)).sum := by
  have hcons : List.count a ∘ (slash :: ·) = List.count a := by
    funext s
    exact List.count_cons_of_ne (Ne.symm h)
  rw [pathText, List.count_flatMap, hcons]

/-- **What is kept behind a mark.** If as many marks stand behind the first one as stood there, the segments
behind it are resolved. -/
theorem resolved_of_mark {slash mark : α} (hslash : mark ≠ slash) (hdot : mark ≠ dot)
    {init rest : List (List α)} {x s suffix before after : List α} (hinit : ∀ t ∈ init, mark ∉ t) (hx : mark ∉ x)
    (hbefore : mark ∉ before)
    (hcount : after.count mark = (s ++ pathText slash rest ++ suffix).count mark)
    (h : pathText slash (cleanSegs dot (init ++ (x ++ mark :: s) :: rest)) ++ suffix = before ++ mark :: after) :
    ∃ segs, Resolved dot segs ∧ (∀ t ∈ segs, t ∈ rest ∨ t = []) ∧
      after = s ++ pathText slash segs ++ suffix := by
  have hname : IsName dot (x ++ mark :: s) :=
    isName_of_mem (List.mem_append_right x List.mem_cons_self) hdot
  have hstack : ∀ t ∈ init.foldl (push dot) [], mark ∉ t := by
    intro t ht
    exact hinit t ((mem_foldl_push ht).resolve_left List.not_mem_nil).1
  have hfold : (init ++ (x ++ mark :: s) :: rest).foldl (push dot) [] =
      rest.foldl (push dot) ((x ++ mark :: s) :: init.foldl (push dot) []) := by
    rw [List.foldl_append, List.foldl_cons, push_of_isName hname]
  rw [cleanSegs, hfold] at h
  generalize init.foldl (push dot) [] = stack at hstack h
  have hzero : (stack.map (List.count mark)).sum = 0 := by
    rw [List.sum_eq_zero_iff_forall_eq_nat]
    simpa [List.count_eq_zero] using hstack
  rcases foldl_push_above (x ++ mark :: s) stack rest with ⟨top, htop, hnames⟩ | hgone
  · have hfirst : mark ∉ pathText slash stack.reverse ++ slash :: x := by
      simp only [List.mem_append, List.mem_cons, not_or, pathText, List.mem_flatMap, not_exists, not_and,
        List.mem_reverse]
      exact ⟨fun t ht => ⟨hslash, hstack t ht⟩, hslash, hx⟩
    refine ⟨top.reverse ++ trail dot (init ++ (x ++ mark :: s) :: rest), ?_, ?_, ?_⟩
    · exact resolved_append_trail fun t ht => (hnames t (List.mem_reverse.mp ht)).2
    · intro t ht
      rcases List.mem_append.mp ht with ht | ht
      · exact Or.inl (hnames t (List.mem_reverse.mp ht)).1
      · exact Or.inr (eq_nil_of_mem_trail ht)
    · have hsplit : pathText slash stack.reverse ++ slash :: x ++ mark :: (s ++
          pathText slash (top.reverse ++ trail dot (init ++ (x ++ mark :: s) :: rest)) ++ suffix) =
            before ++ mark :: after := by
        rw [← h, htop]
        simp
      exact (Text.append_cons_inj hfirst hbefore hsplit).2.symm
  · -- the first mark is gone, and so there are fewer of them
    have hmarks := congrArg (List.count mark) h
    have htrail : ((trail dot (init ++ (x ++ mark :: s) :: rest)).map (List.count mark)).sum = 0 := by
      unfold trail
      split_ifs <;> rfl
    have hgone := hgone (List.count mark)
    simp only [List.count_append, List.count_cons_self, count_pathText hslash, List.map_append,
      List.map_reverse, List.sum_append, List.sum_reverse, htrail] at hmarks hcount
    omega

/-- A mark in a segment is kept with all that stands behind it, if that is resolved. -/
theorem mark_kept {slash mark : α} (hslash : mark ≠ slash) (hdot : mark ≠ dot) {init rest : List (List α)}
    {x s : List α} (hinit : ∀ t ∈ init, mark ∉ t) (hx : mark ∉ x) (h : Resolved dot rest) :
    ∃ before, mark ∉ before ∧ pathText slash (cleanSegs dot (init ++ (x ++ mark :: s) :: rest)) =
      before ++ mark :: (s ++ pathText slash rest) := by
  have hname : IsName dot (x ++ mark :: s) :=
    isName_of_mem (List.mem_append_right x List.mem_cons_self) hdot
  refine ⟨pathText slash (init.foldl (push dot) []).reverse ++ slash :: x, ?_, ?_⟩
  · rw [List.mem_append, List.mem_cons, not_or, not_or, pathText, List.mem_flatMap]
    refine ⟨?_, hslash, hx⟩
    rintro ⟨t, ht, hmem⟩
    have hmem := (List.mem_cons.mp hmem).resolve_left hslash
    exact hinit t ((mem_foldl_push (List.mem_reverse.mp ht)).resolve_left List.not_mem_nil).1 hmem
  · rw [cleanSegs_resolved hname init h]
    simp

end Behind

/-! ## Texts of tokens -/

section Tokens

/-- Tokens of a path: every token has a text, and only the tokens `slash` and `dot` have texts
that begin with the symbols `slash'` and `dot'`. -/
structure Rendering (text : α → List β) (slash dot : α) (slash' dot' : β) : Prop where
  text_slash : text slash = [slash']
  text_dot : text dot = [dot']
  ne_nil : ∀ a, text a ≠ []
  head : ∀ a, (text a).head? = some dot' → a = dot

variable {text : α → List β} {slash dot : α} {slash' dot' : β}

/-- The text of a path of tokens. -/
theorem pathText_flatMap (h : Rendering text slash dot slash' dot') (segs : List (List α)) :
    (pathText slash segs).flatMap text = pathText slash' (segs.map (·.flatMap text)) := by
  induction segs with
  | nil => rfl
  | cons s segs ih =>
      rw [pathText_cons, List.flatMap_cons, List.flatMap_append, ih, h.text_slash, List.map_cons,
        pathText_cons]
      rfl

/-- A segment of tokens is empty iff its text is. -/
theorem flatMap_eq_nil (h : Rendering text slash dot slash' dot') (s : List α) :
    s.flatMap text = [] ↔ s = [] := by
  cases s with
  | nil => simp
  | cons a s => simp [h.ne_nil a]

/-- The text of a segment of tokens begins with `dot'` iff its first token is `dot`. -/
theorem flatMap_eq_dot_cons (h : Rendering text slash dot slash' dot') (s : List α)
    (r : List β) : s.flatMap text = dot' :: r ↔ ∃ s', s = dot :: s' ∧ s'.flatMap text = r := by
  constructor
  · intro heq
    cases s with
    | nil => cases heq
    | cons a s =>
        obtain ⟨b, t, ht⟩ := List.exists_cons_of_ne_nil (h.ne_nil a)
        rw [List.flatMap_cons, ht, List.cons_append, List.cons.injEq] at heq
        have ha : a = dot := h.head a (by rw [ht, heq.1]; rfl)
        subst ha
        rw [h.text_dot, List.cons.injEq] at ht
        obtain ⟨-, rfl⟩ := ht
        exact ⟨s, rfl, heq.2⟩
  · rintro ⟨s', rfl, rfl⟩
    rw [List.flatMap_cons, h.text_dot]
    rfl

/-- A segment of tokens is "here" iff its text is. -/
theorem flatMap_eq_dot (h : Rendering text slash dot slash' dot') (s : List α) :
    s.flatMap text = [dot'] ↔ s = [dot] := by
  rw [flatMap_eq_dot_cons h]
  simp [flatMap_eq_nil h]

/-- A segment of tokens is a name iff its text is, and it is "up" iff its text is. -/
theorem isName_flatMap (h : Rendering text slash dot slash' dot') (s : List α) :
    (IsName dot' (s.flatMap text) ↔ IsName dot s) ∧
      (s.flatMap text = [dot', dot'] ↔ s = [dot, dot]) := by
  have htwo : s.flatMap text = [dot', dot'] ↔ s = [dot, dot] := by
    rw [flatMap_eq_dot_cons h]
    simp [flatMap_eq_dot_cons h, flatMap_eq_nil h]
  refine ⟨?_, htwo⟩
  unfold IsName
  rw [ne_eq, ne_eq, ne_eq, flatMap_eq_nil h, flatMap_eq_dot h, htwo]

/-- Segments of tokens are resolved iff their texts are. -/
theorem resolved_map (h : Rendering text slash dot slash' dot') (segs : List (List α)) :
    Resolved dot' (segs.map (·.flatMap text)) ↔ Resolved dot segs := by
  unfold Resolved
  rw [← List.map_dropLast]
  simp only [List.forall_mem_map, ne_eq, flatMap_eq_nil h, flatMap_eq_dot h, (isName_flatMap h _).2]

/-- The segments of the text of a path of tokens, in which no other token has a separator. -/
theorem splitOn_flatMap [DecidableEq α] [DecidableEq β] (h : Rendering text slash dot slash' dot')
    {p : List α} (hp : ∀ a ∈ p, slash' ∈ text a → a = slash) :
    (p.flatMap text).splitOn slash' = (p.splitOn slash).map (·.flatMap text) := by
  have htext : slash' :: p.flatMap text =
      pathText slash' ((p.splitOn slash).map (·.flatMap text)) := by
    rw [← pathText_flatMap h, ← pathText_split, List.flatMap_cons, h.text_slash]
    rfl
  have htail : p.flatMap text = (pathText slash' ((p.splitOn slash).map (·.flatMap text))).tail := by
    rw [← htext, List.tail_cons]
  rw [htail, splitOn_pathText]
  · rw [ne_eq, List.map_eq_nil_iff]
    exact List.splitOn_ne_nil slash p
  · intro t ht hmem
    obtain ⟨s, hs, rfl⟩ := List.mem_map.mp ht
    obtain ⟨a, ha, hmem⟩ := List.mem_flatMap.mp hmem
    rw [hp a (mem_of_mem_split hs ha) hmem] at ha
    exact not_mem_split hs ha

/-- Cleaning a path of tokens is cleaning its text. -/
theorem cleanSegs_map [DecidableEq α] [DecidableEq β] (h : Rendering text slash dot slash' dot')
    (segs : List (List α)) :
    cleanSegs dot' (segs.map (·.flatMap text)) =
      (cleanSegs dot segs).map (·.flatMap text) := by
  have hpush : ∀ (stack : List (List α)) (s : List α),
      push dot' (stack.map (·.flatMap text)) (s.flatMap text) =
        (push dot stack s).map (·.flatMap text) := by
    intro stack s
    obtain ⟨hname, hup⟩ := isName_flatMap h s
    unfold push
    by_cases h₁ : IsName dot s
    · rw [if_pos h₁, if_pos (hname.mpr h₁), List.map_cons]
    rw [if_neg h₁, if_neg (mt hname.mp h₁)]
    by_cases h₂ : s = [dot, dot]
    · rw [if_pos h₂, if_pos (hup.mpr h₂), List.map_tail]
    · rw [if_neg h₂, if_neg (mt hup.mp h₂)]
  have hfold : ∀ stack : List (List α),
      (segs.map (·.flatMap text)).foldl (push dot') (stack.map (·.flatMap text)) =
        (segs.foldl (push dot) stack).map (·.flatMap text) := by
    intro stack
    induction segs generalizing stack with
    | nil => rfl
    | cons s segs ih => rw [List.map_cons, List.foldl_cons, hpush, ih, List.foldl_cons]
  have hlast : (segs.map (·.flatMap text)).getLastD [] = (segs.getLastD []).flatMap text := by
    rw [List.getLastD_eq_getLast?, List.getLastD_eq_getLast?, List.getLast?_map]
    cases segs.getLast? <;> rfl
  have htrail : trail dot' (segs.map (·.flatMap text)) =
      (trail dot segs).map (·.flatMap text) := by
    unfold trail
    rw [hlast]
    by_cases h₁ : IsName dot (segs.getLastD [])
    · rw [if_pos h₁, if_pos ((isName_flatMap h _).1.mpr h₁), List.map_nil]
    · rw [if_neg h₁, if_neg (mt (isName_flatMap h _).1.mp h₁)]
      rfl
  have hnil := hfold []
  rw [List.map_nil] at hnil
  rw [cleanSegs, cleanSegs, hnil, htrail, List.map_append, List.map_reverse]

end Tokens

end Asenal.Lib.Segments
