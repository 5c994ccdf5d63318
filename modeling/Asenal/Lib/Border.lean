import Mathlib.Data.List.Basic
import Mathlib.Data.List.Infix
import Mathlib.Data.Nat.Find
import Mathlib.Order.Bounds.Basic

/-!
# Borders

A border of a word is a prefix of it that is shorter and that it ends in. The overlap of a text with a word
is the longest prefix of the word that the text ends in. Both are given by their lengths.

* `succ_mem_borders`, `succ_mem_overlaps` — one more character.
* `mem_borders_of_lt` — the shorter one of two borders is a border of the longer one.
* `overlap_concat` — the overlap of a longer text depends on that of the text only.
-/

namespace Asenal.Lib.Border

variable {α : Type*} (p : List α)

/-- The lengths of the borders of the first `q` characters. -/
def borders (q : ℕ) : Set ℕ := {k | k < q ∧ p.take k <:+ p.take q}

/-- The lengths of the prefixes that a text ends in. -/
def overlaps (t : List α) : Set ℕ := {k | k ≤ p.length ∧ p.take k <:+ t}

variable {p} {q k m : ℕ} {t : List α} {c : α}

/-- A prefix that is longer by one character. -/
theorem take_succ_suffix (hk : k < p.length) :
    p.take (k + 1) <:+ t ++ [c] ↔ p.take k <:+ t ∧ p[k]? = some c := by
  rw [List.take_succ_eq_append_getElem hk, List.suffix_concat_iff, List.getElem?_eq_getElem hk]
  simp only [List.append_eq_nil_iff, List.cons_ne_nil, and_false, false_or, Option.some.injEq]
  constructor
  · rintro ⟨s, hs, hsuffix⟩
    obtain ⟨rfl, hc⟩ := List.append_inj' hs rfl
    exact ⟨hsuffix, (List.cons.inj hc).1⟩
  · rintro ⟨hsuffix, hc⟩
    exact ⟨p.take k, by rw [hc], hsuffix⟩

/-! ## Borders -/

/-- Nothing is a border. -/
theorem zero_mem_borders (q : ℕ) : 0 ∈ borders p (q + 1) :=
  ⟨Nat.succ_pos q, by simp⟩

/-- Nothing has no border. -/
theorem borders_zero : borders p 0 = ∅ :=
  Set.eq_empty_of_forall_notMem fun _ h => absurd h.1 (Nat.not_lt_zero _)

/-- **A border that is longer by one character.** -/
theorem succ_mem_borders (hq : q < p.length) :
    k + 1 ∈ borders p (q + 1) ↔ k ∈ borders p q ∧ p[k]? = p[q]? := by
  unfold borders
  simp only [Set.mem_ofPred_eq, Nat.add_lt_add_iff_right]
  rw [and_assoc, and_congr_right_iff]
  intro hk
  rw [List.take_succ_eq_append_getElem hq, take_succ_suffix (hk.trans hq), List.getElem?_eq_getElem hq]

/-- A border of a border. -/
theorem mem_borders_trans (hm : m ∈ borders p k) (hk : k ∈ borders p q) : m ∈ borders p q :=
  ⟨hm.1.trans hk.1, hm.2.trans hk.2⟩

/-- **The shorter one of two borders** is a border of the longer one. -/
theorem mem_borders_of_lt (hm : m ∈ borders p q) (hk : k ∈ borders p q) (hlt : m < k) : m ∈ borders p k := by
  refine ⟨hlt, List.suffix_of_suffix_length_le hm.2 hk.2 ?_⟩
  simp only [List.length_take]
  omega

/-! ## Overlaps -/

/-- Nothing is an overlap. -/
theorem zero_mem_overlaps (p t : List α) : 0 ∈ overlaps p t := ⟨Nat.zero_le _, by simp⟩

/-- **An overlap that is longer by one character.** -/
theorem succ_mem_overlaps : k + 1 ∈ overlaps p (t ++ [c]) ↔ k ∈ overlaps p t ∧ p[k]? = some c := by
  by_cases hk : k < p.length
  · unfold overlaps
    simp only [Set.mem_ofPred_eq, Nat.succ_le_of_lt hk, true_and, take_succ_suffix hk, hk.le]
  · refine iff_of_false (fun h => hk (Nat.lt_of_succ_le h.1)) fun h => ?_
    rw [List.getElem?_eq_none (not_lt.mp hk)] at h
    exact Option.some_ne_none c h.2.symm

/-- The borders are the shorter overlaps. -/
theorem mem_borders_iff (hq : q ≤ p.length) : m ∈ borders p q ↔ m < q ∧ m ∈ overlaps p (p.take q) :=
  ⟨fun h => ⟨h.1, h.1.le.trans hq, h.2⟩, fun h => ⟨h.1, h.2.2⟩⟩

/-- An overlap with a text that ends in a prefix, and is no longer than it. -/
theorem mem_overlaps_take (hk : k ∈ overlaps p t) (hm : m ≤ k) :
    m ∈ overlaps p t ↔ m ∈ overlaps p (p.take k) := by
  constructor
  · intro h
    refine ⟨h.1, List.suffix_of_suffix_length_le h.2 hk.2 ?_⟩
    simp only [List.length_take]
    omega
  · exact fun h => ⟨h.1, h.2.trans hk.2⟩

section
variable [DecidableEq α]

/-- The length of the longest overlap. -/
def overlap (p t : List α) : ℕ := Nat.findGreatest (fun k => p.take k <:+ t) p.length

/-- The length of the longest border. -/
def border (p : List α) (q : ℕ) : ℕ := Nat.findGreatest (fun k => p.take k <:+ p.take q) (q - 1)

/-- The overlap is the longest one. -/
theorem isGreatest_overlap (p t : List α) : IsGreatest (overlaps p t) (overlap p t) := by
  refine ⟨⟨Nat.findGreatest_le _, ?_⟩, fun k hk => Nat.le_findGreatest hk.1 hk.2⟩
  exact Nat.findGreatest_spec (P := fun k => p.take k <:+ t) (Nat.zero_le _) (by simp)

/-- The border is the longest one. -/
theorem isGreatest_border (p : List α) (q : ℕ) : IsGreatest (borders p (q + 1)) (border p (q + 1)) := by
  refine ⟨⟨Nat.lt_succ_of_le (Nat.findGreatest_le _), ?_⟩, fun k hk => ?_⟩
  · exact Nat.findGreatest_spec (P := fun k => p.take k <:+ p.take (q + 1)) (Nat.zero_le _) (by simp)
  · exact Nat.le_findGreatest (Nat.le_of_lt_succ hk.1) hk.2

/-- The longest overlap is the overlap. -/
theorem overlap_eq_iff : overlap p t = k ↔ IsGreatest (overlaps p t) k :=
  ⟨fun h => h ▸ isGreatest_overlap p t, fun h => (isGreatest_overlap p t).unique h⟩

/-- A word ends in itself. -/
theorem overlap_take (hq : q ≤ p.length) : overlap p (p.take q) = q := by
  refine overlap_eq_iff.mpr ⟨⟨hq, List.suffix_rfl⟩, fun k hk => ?_⟩
  have hlen := hk.2.length_le
  simp only [List.length_take] at hlen
  have := hk.1
  omega

/-- One more character: a shorter overlap is enough, if no longer one goes on with the character. -/
theorem overlap_concat_of_le (hk : k ∈ overlaps p t) (hmax : ∀ m ∈ overlaps p t, p[m]? = some c → m ≤ k) :
    overlap p (t ++ [c]) = overlap p (p.take k ++ [c]) := by
  refine overlap_eq_iff.mpr ⟨?_, fun m hm => ?_⟩
  · cases h : overlap p (p.take k ++ [c]) with
    | zero => exact zero_mem_overlaps p _
    | succ m =>
        have hm := h ▸ (isGreatest_overlap p (p.take k ++ [c])).1
        rw [succ_mem_overlaps] at hm ⊢
        exact ⟨⟨hm.1.1, hm.1.2.trans hk.2⟩, hm.2⟩
  · cases m with
    | zero => exact Nat.zero_le _
    | succ m =>
        rw [succ_mem_overlaps] at hm
        refine (isGreatest_overlap p _).2 (succ_mem_overlaps.mpr ⟨?_, hm.2⟩)
        exact (mem_overlaps_take hk (hmax m hm.1 hm.2)).mp hm.1

/-- **One more character**: of the text only its overlap counts. -/
theorem overlap_concat (p t : List α) (c : α) :
    overlap p (t ++ [c]) = overlap p (p.take (overlap p t) ++ [c]) :=
  overlap_concat_of_le (isGreatest_overlap p t).1 fun _ hm _ => (isGreatest_overlap p t).2 hm

/-- A character that goes on with the word. -/
theorem overlap_hit (hc : p[q]? = some c) : overlap p (p.take q ++ [c]) = q + 1 := by
  obtain ⟨hq, hget⟩ := List.getElem?_eq_some_iff.mp hc
  rw [← hget, ← List.take_succ_eq_append_getElem hq]
  exact overlap_take hq

/-- A character that does not occur in the word. -/
theorem overlap_of_not_mem (hc : c ∉ p) (t : List α) : overlap p (t ++ [c]) = 0 := by
  refine overlap_eq_iff.mpr ⟨zero_mem_overlaps p _, fun k hk => ?_⟩
  cases k with
  | zero => exact Nat.le_refl 0
  | succ k => exact absurd (List.mem_of_getElem? (succ_mem_overlaps.mp hk).2) hc

/-- **A character that does not go on with the word**: the overlap is that of the longest border. -/
theorem overlap_miss (hq : q + 1 ≤ p.length) (hc : p[q + 1]? ≠ some c) :
    overlap p (p.take (q + 1) ++ [c]) = overlap p (p.take (border p (q + 1)) ++ [c]) := by
  obtain ⟨hmem, hmax⟩ := isGreatest_border p q
  refine overlap_concat_of_le ((mem_borders_iff hq).mp hmem).2 fun m hm hget => hmax ?_
  have hle := (isGreatest_overlap p (p.take (q + 1))).2 hm
  rw [overlap_take hq] at hle
  have hne : m ≠ q + 1 := fun heq => hc (heq ▸ hget)
  exact (mem_borders_iff hq).mpr ⟨lt_of_le_of_ne hle hne, hm⟩

end

end Asenal.Lib.Border
