import Asenal.Lib.Text
import Mathlib.Data.List.GetD

/-!
# Binary search for a prefix

A binary search asks at each position how what is looked for compares with the entry there, and goes on in one
half. All it needs is that the answers are in order: behind an entry that is too large all are, and in front of
one that is too small all are.

Words of which no one begins another, in the order of their bytes, are such a table for the question which of
them a text begins with.

* `isSome_bisect_iff` — the search finds an entry iff there is one.
* `ordered_strncmp` — the answers of a table of words in order.
-/

namespace Asenal.Lib.Search

open Asenal.Lib.Text

/-! ## The search -/

/-- The entries between `head` and `tail`; `cmp` tells how what is looked for compares with an entry. -/
def bisect (cmp : ℤ → Ordering) (head tail : ℤ) : Option ℤ :=
  if _h : head ≤ tail then
    let cur := (head + tail) / 2
    match cmp cur with
    | .lt => bisect cmp head (cur - 1)
    | .gt => bisect cmp (cur + 1) tail
    | .eq => some cur
  else none
termination_by (tail + 1 - head).toNat
decreasing_by all_goals omega

/-- The answers are in order between `head` and `tail`. -/
structure Ordered (cmp : ℤ → Ordering) (head tail : ℤ) : Prop where
  lt : ∀ i j, head ≤ i → i < j → j ≤ tail → cmp i = .lt → cmp j = .lt
  gt : ∀ i j, head ≤ i → i < j → j ≤ tail → cmp j = .gt → cmp i = .gt

theorem Ordered.mono {cmp : ℤ → Ordering} {head tail head' tail' : ℤ} (h : Ordered cmp head tail)
    (hhead : head ≤ head') (htail : tail' ≤ tail) : Ordered cmp head' tail' :=
  ⟨fun i j hi hij hj => h.lt i j (by omega) hij (by omega), fun i j hi hij hj => h.gt i j (by omega) hij (by omega)⟩

/-- What is found is an entry that is looked for. -/
theorem bisect_eq_some {cmp : ℤ → Ordering} {head tail i : ℤ} (h : bisect cmp head tail = some i) :
    head ≤ i ∧ i ≤ tail ∧ cmp i = .eq := by
  fun_induction bisect cmp head tail with
  | case1 head tail hle cur hlt ih =>
      have hcur : cur = (head + tail) / 2 := rfl
      obtain ⟨h₁, h₂, h₃⟩ := ih h
      exact ⟨h₁, by omega, h₃⟩
  | case2 head tail hle cur hgt ih =>
      have hcur : cur = (head + tail) / 2 := rfl
      obtain ⟨h₁, h₂, h₃⟩ := ih h
      exact ⟨by omega, h₂, h₃⟩
  | case3 head tail hle cur heq =>
      have hcur : cur = (head + tail) / 2 := rfl
      obtain rfl := Option.some.inj h
      exact ⟨by omega, by omega, heq⟩
  | case4 => cases h

/-- An entry that is looked for is not passed over. -/
theorem isSome_bisect {cmp : ℤ → Ordering} {head tail k : ℤ} (hord : Ordered cmp head tail) (hhead : head ≤ k)
    (htail : k ≤ tail) (hk : cmp k = .eq) : (bisect cmp head tail).isSome := by
  fun_induction bisect cmp head tail with
  | case1 head tail hle cur hlt ih =>
      have hcur : cur = (head + tail) / 2 := rfl
      have hbefore : k < cur := by
        by_contra hnot
        rcases Int.lt_or_eq_of_le (Int.not_lt.mp hnot) with hless | hsame
        · have hk' := hord.lt cur k (by omega) hless htail hlt
          rw [hk] at hk'
          cases hk'
        · rw [hsame, hk] at hlt
          cases hlt
      exact ih (hord.mono (by omega) (by omega)) hhead (by omega)
  | case2 head tail hle cur hgt ih =>
      have hcur : cur = (head + tail) / 2 := rfl
      have hbehind : cur < k := by
        by_contra hnot
        rcases Int.lt_or_eq_of_le (Int.not_lt.mp hnot) with hless | hsame
        · have hk' := hord.gt k cur hhead hless (by omega) hgt
          rw [hk] at hk'
          cases hk'
        · rw [← hsame, hk] at hgt
          cases hgt
      exact ih (hord.mono (by omega) (by omega)) (by omega) htail
  | case3 => rfl
  | case4 head tail hlt => omega

/-- **The search finds an entry iff there is one.** -/
theorem isSome_bisect_iff {cmp : ℤ → Ordering} {head tail : ℤ} (hord : Ordered cmp head tail) :
    (bisect cmp head tail).isSome ↔ ∃ i, head ≤ i ∧ i ≤ tail ∧ cmp i = .eq := by
  constructor
  · intro h
    obtain ⟨i, hi⟩ := Option.isSome_iff_exists.mp h
    exact ⟨i, bisect_eq_some hi⟩
  · rintro ⟨k, hhead, htail, hk⟩
    exact isSome_bisect hord hhead htail hk

/-! ## Words in order -/

/-- How the first `n` bytes of two C strings compare, as `strncmp` has it: unsigned, and an end is less than any
byte. -/
def strncmp : ℕ → Bytes → Bytes → Ordering
  | 0, _, _ => .eq
  | _ + 1, [], [] => .eq
  | _ + 1, [], _ :: _ => .lt
  | _ + 1, _ :: _, [] => .gt
  | n + 1, a :: s, b :: t => if a < b then .lt else if b < a then .gt else strncmp n s t

/-- A word stands before another one because of the first byte in which they differ. -/
def before : Bytes → Bytes → Bool
  | a :: s, b :: t => a < b || (a == b && before s t)
  | _, _ => false

/-- A text compares as equal with the words it begins with. -/
theorem strncmp_eq_iff (s w : Bytes) : strncmp w.length s w = .eq ↔ w <+: s := by
  induction w generalizing s with
  | nil => simp [strncmp]
  | cons b w ih =>
      cases s with
      | nil => simp [strncmp]
      | cons a s =>
          rw [List.length_cons, strncmp, List.cons_prefix_cons]
          split_ifs with hlt hgt
          · exact iff_of_false (by decide) fun h => absurd (h.1 ▸ hlt) (Std.lt_irrefl)
          · exact iff_of_false (by decide) fun h => absurd (h.1 ▸ hgt) (Std.lt_irrefl)
          · have hsame : b = a := by
              exact Std.le_antisymm (Std.not_lt.mp hlt) (Std.not_lt.mp hgt)
            rw [ih, and_iff_right hsame]

/-- A text in front of a word is in front of those behind it. -/
theorem strncmp_lt_of_before {v w : Bytes} (h : before v w = true) {s : Bytes}
    (hs : strncmp v.length s v = .lt) : strncmp w.length s w = .lt := by
  induction v generalizing w s with
  | nil => cases h
  | cons a v ih =>
      cases w with
      | nil => cases h
      | cons b w =>
          cases s with
          | nil => rfl
          | cons c s =>
              rw [List.length_cons, strncmp] at hs ⊢
              simp only [before, Bool.or_eq_true, decide_eq_true_eq, Bool.and_eq_true, beq_iff_eq] at h
              grind

/-- A text behind a word is behind those in front of it. -/
theorem strncmp_gt_of_before {v w : Bytes} (h : before v w = true) {s : Bytes}
    (hs : strncmp w.length s w = .gt) : strncmp v.length s v = .gt := by
  induction v generalizing w s with
  | nil => cases h
  | cons a v ih =>
      cases w with
      | nil => cases h
      | cons b w =>
          cases s with
          | nil => cases hs
          | cons c s =>
              rw [List.length_cons, strncmp] at hs ⊢
              simp only [before, Bool.or_eq_true, decide_eq_true_eq, Bool.and_eq_true, beq_iff_eq] at h
              grind

theorem before_trans {u v w : Bytes} (huv : before u v = true) (hvw : before v w = true) : before u w = true := by
  induction u generalizing v w with
  | nil => cases huv
  | cons a u ih =>
      cases v with
      | nil => cases huv
      | cons b v =>
          cases w with
          | nil => cases hvw
          | cons c w =>
              simp only [before, Bool.or_eq_true, decide_eq_true_eq, Bool.and_eq_true, beq_iff_eq] at *
              grind

/-- It is enough to compare neighbours. -/
theorem pairwise_before {table : List Bytes} (h : table.IsChain fun v w => before v w = true) :
    table.Pairwise fun v w => before v w = true := by
  have htrans : IsTrans Bytes fun v w => before v w = true := ⟨fun _ _ _ => before_trans⟩
  exact List.isChain_iff_pairwise.mp h

/-- **The answers of a table of words in order** are in order, whatever text is compared with them. -/
theorem ordered_strncmp {table : List Bytes} (h : table.Pairwise fun v w => before v w = true) (s : Bytes) :
    Ordered (fun i => strncmp (table.getD i.toNat []).length s (table.getD i.toNat [])) 0 (table.length - 1) := by
  have hbefore : ∀ i j : ℤ, 0 ≤ i → i < j → j ≤ table.length - 1 →
      before (table.getD i.toNat []) (table.getD j.toNat []) = true := by
    intro i j hi hij hj
    rw [List.getD_eq_getElem _ _ (by omega), List.getD_eq_getElem _ _ (by omega)]
    exact List.pairwise_iff_getElem.mp h _ _ _ _ (by omega)
  exact ⟨fun i j hi hij hj => strncmp_lt_of_before (hbefore i j hi hij hj),
    fun i j hi hij hj => strncmp_gt_of_before (hbefore i j hi hij hj)⟩

/-- **The search in a table of words in order** tells whether a text begins with one of them. -/
theorem isSome_bisect_words_iff {table : List Bytes} (h : table.Pairwise fun v w => before v w = true) (s : Bytes) :
    (bisect (fun i => strncmp (table.getD i.toNat []).length s (table.getD i.toNat [])) 0
      (table.length - 1)).isSome ↔ ∃ w ∈ table, w <+: s := by
  rw [isSome_bisect_iff (ordered_strncmp h s)]
  simp only [strncmp_eq_iff]
  constructor
  · rintro ⟨i, hi, htail, hp⟩
    refine ⟨_, ?_, hp⟩
    rw [List.getD_eq_getElem _ _ (by omega)]
    exact List.getElem_mem _
  · rintro ⟨w, hw, hp⟩
    obtain ⟨k, hk, rfl⟩ := List.getElem_of_mem hw
    refine ⟨k, by omega, by omega, ?_⟩
    rw [Int.toNat_natCast, List.getD_eq_getElem _ _ hk]
    exact hp

end Asenal.Lib.Search
