import Mathlib.Algebra.Group.Nat.Defs
import Mathlib.Data.List.Rotate
import Mathlib.Order.Bounds.Basic

/-!
# The least element of a rotated list

`findMin` searches a list that was sorted before it was rotated, with equal elements at any place. Each round
keeps a part of the list where the least element stands.

* `Rotated` — a list of two sorted parts, the second one not above the first one.
* `bSearch_spec` — the search from any part that has a least element.
* `findMin_spec` — what is found.
-/

namespace Asenal.Acm

/-! ## The program -/

/-- The sum of two indices, if it is an `int`. -/
def addIndex (l r : ℕ) : Option ℕ := if l + r < 2 ^ 31 then some (l + r) else none

/-- The search with `fuel` rounds at most; `none` where it leaves the list. Source: `findMin.cc`
`Solution::bSearch`. -/
def bSearch (num : List ℤ) : ℕ → ℕ → ℕ → Option ℤ
  | 0, _, _ => none
  | fuel + 1, l, r =>
      if l < r then do
        let mid := (← addIndex l r) / 2
        let a ← num[l]?
        let b ← num[r]?
        if a < b then bSearch num fuel l l
        else
          let c ← num[mid]?
          if a < c then bSearch num fuel (mid + 1) r
          else if a > c then bSearch num fuel l mid
          else bSearch num fuel (l + 1) r
      else num[l]?

/-- Source: `findMin.cc` `Solution::findMin`. -/
def findMin (fuel : ℕ) (num : List ℤ) : Option ℤ :=
  if num.length = 0 then some 0
  else if num.length = 1 then num[0]?
  else bSearch num fuel 0 (num.length - 1)

/-! ## Rotated lists -/

/-- The elements in front of the index `k` are sorted, and so are those from there on, none of which is above
one of the others. -/
structure Rotated (num : List ℤ) (k : ℕ) : Prop where
  le : ∀ {i j a b}, i ≤ j → j < k ∨ k ≤ i → num[i]? = some a → num[j]? = some b → a ≤ b
  ge : ∀ {i j a b}, i < k → k ≤ j → num[i]? = some a → num[j]? = some b → b ≤ a

variable {num s : List ℤ} {fuel k l r : ℕ} {a b c m : ℤ}

/-- Elements of a sorted list. -/
theorem le_of_pairwise (h : s.Pairwise (· ≤ ·)) {i j : ℕ} (hij : i ≤ j) (ha : s[i]? = some a)
    (hb : s[j]? = some b) : a ≤ b := by
  obtain ⟨hi, rfl⟩ := List.getElem?_eq_some_iff.mp ha
  obtain ⟨hj, rfl⟩ := List.getElem?_eq_some_iff.mp hb
  rcases hij.eq_or_lt with rfl | hlt
  · exact le_refl _
  · exact List.pairwise_iff_getElem.mp h i j hi hj hlt

/-- **A rotation** of a sorted list. -/
theorem exists_rotated (hsorted : s.Pairwise (· ≤ ·)) (h : s ~r num) : ∃ k, Rotated num k := by
  obtain ⟨n, hn, rfl⟩ := List.isRotated_iff_mod.mp h
  rw [List.rotate_eq_drop_append_take hn]
  have hfront : ∀ {i a}, i < (s.drop n).length → (s.drop n ++ s.take n)[i]? = some a → s[n + i]? = some a := by
    intro i a hi ha
    rwa [List.getElem?_append_left hi, List.getElem?_drop] at ha
  have hback : ∀ {i a}, (s.drop n).length ≤ i → (s.drop n ++ s.take n)[i]? = some a →
      i - (s.drop n).length < n ∧ s[i - (s.drop n).length]? = some a := by
    intro i a hi ha
    rw [List.getElem?_append_right hi, List.getElem?_take] at ha
    split_ifs at ha with hlt
    exact ⟨hlt, ha⟩
  refine ⟨(s.drop n).length, ?_, ?_⟩
  · intro i j a b hij hpart ha hb
    rcases hpart with hj | hi
    · exact le_of_pairwise hsorted (Nat.add_le_add_left hij n) (hfront (hij.trans_lt hj) ha) (hfront hj hb)
    · exact le_of_pairwise hsorted (Nat.sub_le_sub_right hij _) (hback hi ha).2 (hback (hi.trans hij) hb).2
  · intro i j a b hi hj ha hb
    obtain ⟨hlt, hb⟩ := hback hj hb
    exact le_of_pairwise hsorted (by omega) hb (hfront hi ha)

/-- The value stands between two indices. -/
def Between (num : List ℤ) (m : ℤ) (l r : ℕ) : Prop := ∃ i, l ≤ i ∧ i ≤ r ∧ num[i]? = some m

/-! ## Which part is kept -/

/-- If the last element is above the first one, the first one is the least. -/
theorem Rotated.eq_first (h : Rotated num k) (hm : ∀ x ∈ num, m ≤ x) (hbetween : Between num m l r)
    (ha : num[l]? = some a) (hb : num[r]? = some b) (hlt : a < b) : a = m := by
  obtain ⟨i, hl, hr, hi⟩ := hbetween
  have hpart : i < k ∨ k ≤ l := by
    by_contra hnot
    rw [not_or] at hnot
    exact absurd (h.ge (by omega) (by omega) ha hb) (not_le.mpr hlt)
  exact le_antisymm (h.le hl hpart ha hi) (hm a (List.mem_of_getElem? ha))

/-- If the element in the middle is above the first one, and that is not below the last one, the least element
stands behind the middle. -/
theorem Rotated.behind (h : Rotated num k) (hm : ∀ x ∈ num, m ≤ x) (hbetween : Between num m l r) {mid : ℕ}
    (hl : l ≤ mid) (hr : mid ≤ r) (ha : num[l]? = some a) (hb : num[r]? = some b) (hc : num[mid]? = some c)
    (hba : b ≤ a) (hac : a < c) : Between num m (mid + 1) r := by
  obtain ⟨i, hli, hir, hi⟩ := hbetween
  have hk : l < k ∧ k ≤ r := by
    by_contra hnot
    have := h.le hr (by omega) hc hb
    omega
  have hmid : mid < k := by
    by_contra hnot
    have := h.ge hk.1 (not_lt.mp hnot) ha hc
    omega
  rcases Nat.lt_or_ge mid i with hlt | hge
  · exact ⟨i, hlt, hir, hi⟩
  · -- the second part begins with it as well
    have hrlt := (List.getElem?_eq_some_iff.mp hb).1
    have hget : num[k]? = some num[k] := List.getElem?_eq_getElem (hk.2.trans_lt hrlt)
    have hle := h.ge (hge.trans_lt hmid) (Nat.le_refl k) hi hget
    have heq : num[k] = m := le_antisymm hle (hm _ (List.getElem_mem _))
    exact ⟨k, hmid, hk.2, heq ▸ hget⟩

/-- If the element in the middle is below the first one, the least element does not stand behind it. -/
theorem Rotated.upTo (h : Rotated num k) (hm : ∀ x ∈ num, m ≤ x) (hbetween : Between num m l r) {mid : ℕ}
    (hl : l ≤ mid) (ha : num[l]? = some a) (hc : num[mid]? = some c) (hca : c < a) : Between num m l mid := by
  obtain ⟨i, hli, hir, hi⟩ := hbetween
  have hk : k ≤ mid := by
    by_contra hnot
    have := h.le hl (Or.inl (not_le.mp hnot)) ha hc
    omega
  rcases Nat.le_total i mid with hle | hge
  · exact ⟨i, hli, hle, hi⟩
  · have heq : c = m := le_antisymm (h.le hge (Or.inr hk) hc hi) (hm c (List.mem_of_getElem? hc))
    exact ⟨mid, hl, Nat.le_refl mid, heq ▸ hc⟩

/-- If both are equal, the least element stands behind the first one, too. -/
theorem Between.next (hm : ∀ x ∈ num, m ≤ x) (hbetween : Between num m l r) (hlt : l < r)
    (ha : num[l]? = some a) (hb : num[r]? = some b) (hba : b ≤ a) (hc : num[(l + r) / 2]? = some a) :
    Between num m (l + 1) r := by
  obtain ⟨i, hli, hir, hi⟩ := hbetween
  rcases hli.eq_or_lt with rfl | hli
  · obtain rfl := Option.some.inj (ha.symm.trans hi)
    by_cases hmid : l < (l + r) / 2
    · exact ⟨_, hmid, by omega, hc⟩
    · have heq : b = a := le_antisymm hba (hm b (List.mem_of_getElem? hb))
      exact ⟨r, hlt, Nat.le_refl r, heq ▸ hb⟩
  · exact ⟨i, hli, hir, hi⟩

/-- **The search** from a part where the least element stands. -/
theorem bSearch_spec (h : Rotated num k) (hm : ∀ x ∈ num, m ≤ x) (hlen : num.length < 2 ^ 30)
    (hbetween : Between num m l r) (hr : r < num.length) (hfuel : r - l < fuel) : bSearch num fuel l r = some m := by
  induction fuel generalizing l r with
  | zero => omega
  | succ fuel ih =>
      have hlr : l ≤ r := by
        obtain ⟨i, hl, hr, -⟩ := hbetween
        omega
      have ha : num[l]? = some num[l] := List.getElem?_eq_getElem _
      rw [bSearch]
      by_cases hlt : l < r
      · have hb : num[r]? = some num[r] := List.getElem?_eq_getElem _
        have hc : num[(l + r) / 2]? = some num[(l + r) / 2] := List.getElem?_eq_getElem (by omega)
        have hsum : addIndex l r = some (l + r) := if_pos (by omega)
        rw [if_pos hlt]
        simp only [hsum, ha, hb, hc, Option.bind_eq_bind, Option.bind_some]
        split_ifs with hfirst hless hgreater
        · refine ih ⟨l, Nat.le_refl l, Nat.le_refl l, ?_⟩ (by omega) (by omega)
          rw [ha, h.eq_first hm hbetween ha hb hfirst]
        · exact ih (h.behind hm hbetween (by omega) (by omega) ha hb hc (not_lt.mp hfirst) hless) hr (by omega)
        · exact ih (h.upTo hm hbetween (by omega) ha hc hgreater) (by omega) (by omega)
        · have heq : num[(l + r) / 2] = num[l] := by omega
          rw [heq] at hc
          exact ih (hbetween.next hm hlt ha hb (not_lt.mp hfirst) hc) hr (by omega)
      · rw [if_neg hlt]
        obtain ⟨i, hli, hir, hi⟩ := hbetween
        obtain rfl : i = l := by omega
        exact hi

/-- **The least element** is found, with every index inside of the list. -/
theorem findMin_spec (num : List ℤ) (hne : num ≠ []) (hlen : num.length < 2 ^ 30)
    (hrotated : ∃ s : List ℤ, s.Pairwise (· ≤ ·) ∧ s ~r num) :
    ∃ m, IsLeast {x | x ∈ num} m ∧ ∀ fuel, num.length ≤ fuel → findMin fuel num = some m := by
  obtain ⟨s, hsorted, hs⟩ := hrotated
  obtain ⟨k, hk⟩ := exists_rotated hsorted hs
  have hpos := List.length_pos_of_ne_nil hne
  obtain ⟨m, hmin⟩ := Option.ne_none_iff_exists'.mp (mt List.min?_eq_none_iff.mp hne)
  have hleast : IsLeast {x | x ∈ num} m := List.min?_eq_some_iff.mp hmin
  obtain ⟨i, hi⟩ := List.mem_iff_getElem?.mp hleast.1
  have hilt := (List.getElem?_eq_some_iff.mp hi).1
  refine ⟨m, hleast, fun fuel hfuel => ?_⟩
  unfold findMin
  rw [if_neg (by omega)]
  split_ifs with hone
  · obtain rfl : i = 0 := by omega
    exact hi
  · exact bSearch_spec hk hleast.2 hlen ⟨i, Nat.zero_le i, by omega, hi⟩ (by omega) (by omega)

/-- Duplicates at both ends. -/
theorem findMin_spec_three : ∃ m, IsLeast {x | x ∈ [3, 3, 1, 3]} m ∧
    ∀ fuel, 4 ≤ fuel → findMin fuel [3, 3, 1, 3] = some m :=
  findMin_spec [3, 3, 1, 3] (List.cons_ne_nil _ _) (by decide) ⟨[1, 3, 3, 3], by decide, 2, rfl⟩

end Asenal.Acm
