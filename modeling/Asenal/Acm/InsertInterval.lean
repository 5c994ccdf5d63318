import Mathlib.Algebra.Order.Group.Int
import Mathlib.Data.Int.Interval
import Mathlib.Data.List.InsertIdx
import Mathlib.Data.Real.Basic
import Mathlib.Data.Set.Lattice
import Mathlib.Order.CompletePartialOrder
import Mathlib.Order.Interval.Set.Basic
import Asenal.Lib.Checked

/-!
# A new interval among disjoint ones

`insertInterval` looks for the intervals where the new one begins and ends, erases them and the ones between, and
puts one interval in their place. The positions of the others change while it erases, and an interval that begins
and ends in no other one is put in front or behind.

* `Inserted` — what is to be returned.
* `eraseLoop_next` — what is not erased.
* `insertInterval_iff` — when what is returned is right.
-/

namespace Asenal.Acm

open Asenal.Lib.Checked

/-! ## The program -/

/-- A closed interval. -/
structure Interval where
  start : ℤ
  stop : ℤ
deriving DecidableEq

/-- The first of `valsLen` intervals that holds `x`. Source: `insertInterval.cpp` `Solution::insert`, the loops for
`lf` and `rf`. -/
def findInterval (valsLen : ℤ) (intervals : List Interval) (x : ℤ) : Option ℕ :=
  (intervals.take valsLen.toNat).findIdx? fun i => x ≥ i.start ∧ x ≤ i.stop

/-- Erases at `count` positions from `i` on; `none` where there is no interval. Source: `insertInterval.cpp`
`Solution::insert`, the loop that erases. -/
def eraseLoop : ℕ → ℕ → List Interval → Option (List Interval)
  | 0, _, intervals => some intervals
  | count + 1, i, intervals =>
      if i < intervals.length then eraseLoop count (i + 1) (intervals.eraseIdx i) else none

/-- Insert in front of a position. -/
def insertAt (intervals : List Interval) (i : ℕ) (tmp : Interval) : Option (List Interval) :=
  if i ≤ intervals.length then some (intervals.insertIdx i tmp) else none

/-- Source: `insertInterval.cpp` `Solution::insert`. -/
def insertInterval (intervals : List Interval) (newInterval : Interval) : Option (List Interval) :=
  let valsLen := intOf intervals.length
  if valsLen = 0 then some [newInterval]
  else
    let lf : ℤ := ((findInterval valsLen intervals newInterval.start).map Nat.cast).getD (-1)
    let rf : ℤ := ((findInterval valsLen intervals newInterval.stop).map Nat.cast).getD valsLen
    if lf = -1 ∧ rf = valsLen then
      intervals[0]?.bind fun first =>
        if newInterval.stop < first.start then insertAt intervals 0 newInterval
        else some (intervals ++ [newInterval])
    else do
      let start ← if lf = -1 then some newInterval.start
        else intervals[lf.toNat]?.map fun i => min newInterval.start i.start
      let stop ← if rf = valsLen then some newInterval.stop
        else intervals[rf.toNat]?.map fun i => max newInterval.stop i.stop
      let erased ← eraseLoop (min rf (valsLen - 1) - max lf 0 + 1).toNat (max lf 0).toNat intervals
      if lf = -1 then insertAt erased 0 ⟨start, stop⟩ else insertAt erased (max lf 0).toNat ⟨start, stop⟩

/-! ## Intervals -/

/-- The points of an interval. -/
def Interval.points (i : Interval) : Set ℝ := Set.Icc i.start i.stop

/-- An interval whose ends are `int`s. -/
structure Interval.Valid (i : Interval) : Prop where
  le : i.start ≤ i.stop
  lower : -2 ^ 31 ≤ i.start
  upper : i.stop < 2 ^ 31

/-- Sorted by start and pairwise disjoint. -/
structure Sorted (intervals : List Interval) : Prop where
  start : intervals.Pairwise fun i j => i.start ≤ j.start
  disjoint : intervals.Pairwise fun i j => Disjoint i.points j.points

/-- What is to be returned. -/
structure Inserted (intervals : List Interval) (newInterval : Interval) (res : List Interval) : Prop where
  sorted : Sorted res
  covers : (⋃ i ∈ res, i.points) = (⋃ i ∈ intervals, i.points) ∪ newInterval.points
  keeps : ∀ i ∈ intervals, Disjoint i.points newInterval.points → i ∈ res

variable {intervals l l' res pre post : List Interval} {newInterval i j tmp : Interval} {x : ℤ} {count k n : ℕ}

/-- The integers of an interval. -/
theorem cast_mem_points : (x : ℝ) ∈ i.points ↔ i.start ≤ x ∧ x ≤ i.stop := by
  simp [Interval.points]

/-- **In front of**: sorted by start and disjoint. -/
theorem lt_iff (hi : i.start ≤ i.stop) (hj : j.start ≤ j.stop) :
    i.stop < j.start ↔ i.start ≤ j.start ∧ Disjoint i.points j.points := by
  constructor
  · intro h
    refine ⟨by omega, Set.disjoint_left.mpr fun y hy hy' => ?_⟩
    have hlt : (i.stop : ℝ) < j.start := by exact_mod_cast h
    exact absurd (hy.2.trans_lt hlt) (not_lt.mpr hy'.1)
  · rintro ⟨hstart, hdisjoint⟩
    by_contra hle
    exact Set.disjoint_left.mp hdisjoint (cast_mem_points.mpr ⟨hstart, not_lt.mp hle⟩)
      (cast_mem_points.mpr ⟨le_refl _, hj⟩)

/-- Sorted intervals are sorted in pairs. -/
theorem sorted_iff (h : ∀ i ∈ l, i.start ≤ i.stop) : Sorted l ↔ l.Pairwise fun i j => i.stop < j.start := by
  have hlt : (l.Pairwise fun i j => i.stop < j.start) ↔
      l.Pairwise fun i j => i.start ≤ j.start ∧ Disjoint i.points j.points :=
    List.Pairwise.iff_of_mem fun {i j} hi hj => lt_iff (h i hi) (h j hj)
  rw [hlt, List.pairwise_and_iff]
  exact ⟨fun h => ⟨h.start, h.disjoint⟩, fun h => ⟨h.1, h.2⟩⟩

/-! ## What is erased -/

/-- In front of the first position nothing is erased. -/
theorem eraseLoop_lt (h : eraseLoop count k l = some l') {m : ℕ} (hm : m < k) : l'[m]? = l[m]? := by
  induction count generalizing k l with
  | zero => rw [Option.some.inj h]
  | succ count ih =>
      rw [eraseLoop] at h
      split_ifs at h
      rw [ih h (hm.trans (Nat.lt_succ_self k)), List.getElem?_eraseIdx_of_lt hm]

/-- **What is not erased**: behind the first interval that is erased one is left out. -/
theorem eraseLoop_next (h : eraseLoop (count + 2) k l = some l') : l'[k]? = l[k + 1]? := by
  rw [eraseLoop] at h
  split_ifs at h
  rw [eraseLoop_lt h (Nat.lt_succ_self k), List.getElem?_eraseIdx_of_ge (le_refl k)]

/-- The positions grow as the list gets shorter. -/
theorem eraseLoop_length (h : eraseLoop (count + 1) k l = some l') : k + 2 * count < l.length := by
  induction count generalizing k l with
  | zero =>
      rw [eraseLoop] at h
      split_ifs at h
      omega
  | succ count ih =>
      rw [eraseLoop] at h
      split_ifs at h with hk
      have := ih h
      rw [List.length_eraseIdx_of_lt hk] at this
      omega

/-- **One interval** is exchanged. -/
theorem eraseLoop_one (hk : k < l.length) (tmp : Interval) :
    (eraseLoop 1 k l).bind (insertAt · k tmp) = some (l.set k tmp) := by
  have hle : k ≤ (l.eraseIdx k).length := by
    rw [List.length_eraseIdx_of_lt hk]
    omega
  simp only [eraseLoop, if_pos hk, Option.bind_some, insertAt, if_pos hle]
  rw [List.insertIdx_eraseIdx_self hk.ne]

/-! ## What is found -/

/-- No interval has the point. -/
theorem findInterval_eq_none (h : findInterval l.length l x = none) : ∀ i ∈ l, ¬ (i.start ≤ x ∧ x ≤ i.stop) := by
  rw [findInterval, Int.toNat_natCast, List.take_length, List.findIdx?_eq_none_iff] at h
  exact fun i hi => of_decide_eq_false (h i hi)

/-- The interval with the point. -/
theorem findInterval_eq_some (h : findInterval l.length l x = some k) :
    ∃ i, l[k]? = some i ∧ i.start ≤ x ∧ x ≤ i.stop := by
  rw [findInterval, Int.toNat_natCast, List.take_length, List.findIdx?_eq_some_iff_getElem] at h
  obtain ⟨hk, hx, -⟩ := h
  exact ⟨_, List.getElem?_eq_getElem hk, of_decide_eq_true hx⟩

/-- The size is an `int`. -/
theorem insertInterval_none (hn : l.length < 2 ^ 31) (hl : findInterval l.length l newInterval.start = none)
    (hr : findInterval l.length l newInterval.stop = none) {first : Interval} (hfirst : l[0]? = some first) :
    insertInterval l newInterval =
      if newInterval.stop < first.start then some (newInterval :: l) else some (l ++ [newInterval]) := by
  have hpos : 0 < l.length := (List.getElem?_eq_some_iff.mp hfirst).1
  have hne : (l.length : ℤ) ≠ 0 := by omega
  simp [insertInterval, intOf_of_lt hn, hl, hr, hfirst, insertAt, List.length_pos_iff.mp hpos]

/-- The end alone is in an interval. -/
theorem insertInterval_right (hn : l.length < 2 ^ 31) (hl : findInterval l.length l newInterval.start = none)
    (hr : findInterval l.length l newInterval.stop = some k) (hj : l[k]? = some j) :
    insertInterval l newInterval = (eraseLoop (k + 1) 0 l).bind
      (insertAt · 0 ⟨newInterval.start, max newInterval.stop j.stop⟩) := by
  have hk : k < l.length := (List.getElem?_eq_some_iff.mp hj).1
  have hne : (l.length : ℤ) ≠ 0 := by omega
  have hrf : ¬ (k : ℤ) = l.length := by omega
  have hcount : (min (k : ℤ) (l.length - 1) + 1).toNat = k + 1 := by omega
  have hnil : l ≠ [] := List.length_pos_iff.mp (by omega)
  simp [insertInterval, intOf_of_lt hn, hl, hr, hj, hrf, hcount, hnil]

/-- The start alone is in an interval. -/
theorem insertInterval_left (hn : l.length < 2 ^ 31) (hl : findInterval l.length l newInterval.start = some k)
    (hr : findInterval l.length l newInterval.stop = none) (hj : l[k]? = some j) :
    insertInterval l newInterval = (eraseLoop (l.length - k) k l).bind
      (insertAt · k ⟨min newInterval.start j.start, newInterval.stop⟩) := by
  have hk : k < l.length := (List.getElem?_eq_some_iff.mp hj).1
  have hlf : ¬ (k : ℤ) = -1 := by omega
  have hcount : ((l.length : ℤ) - 1 - k + 1).toNat = l.length - k := by omega
  have hnil : l ≠ [] := List.length_pos_iff.mp (by omega)
  simp [insertInterval, intOf_of_lt hn, hl, hr, hj, hlf, hcount, hnil]

/-- The start and the end are in intervals. -/
theorem insertInterval_both {m : ℕ} (hn : l.length < 2 ^ 31)
    (hl : findInterval l.length l newInterval.start = some k)
    (hr : findInterval l.length l newInterval.stop = some m) (hi : l[k]? = some i) (hj : l[m]? = some j)
    (hkm : k ≤ m) : insertInterval l newInterval = (eraseLoop (m - k + 1) k l).bind
      (insertAt · k ⟨min newInterval.start i.start, max newInterval.stop j.stop⟩) := by
  have hm : m < l.length := (List.getElem?_eq_some_iff.mp hj).1
  have hlf : ¬ (k : ℤ) = -1 := by omega
  have hrf : ¬ (m : ℤ) = l.length := by omega
  have hcount : (min (m : ℤ) (l.length - 1) - k + 1).toNat = m - k + 1 := by omega
  have hnil : l ≠ [] := List.length_pos_iff.mp (by omega)
  simp [insertInterval, intOf_of_lt hn, hl, hr, hi, hj, hlf, hrf, hcount, hnil]

/-! ## The result -/

/-- Two intervals that meet. -/
theorem points_union (h : i.start ≤ j.stop) (h' : j.start ≤ i.stop) :
    (⟨min j.start i.start, max j.stop i.stop⟩ : Interval).points = i.points ∪ j.points := by
  have hcast : (i.start : ℝ) ≤ j.stop := by exact_mod_cast h
  have hcast' : (j.start : ℝ) ≤ i.stop := by exact_mod_cast h'
  rw [Set.union_comm, Interval.points, Interval.points, Interval.points, Set.Icc_union_Icc' hcast hcast']
  push_cast
  rfl

/-- The points of two lists. -/
theorem iUnion_points_append (l l' : List Interval) :
    (⋃ i ∈ l ++ l', i.points) = (⋃ i ∈ l, i.points) ∪ ⋃ i ∈ l', i.points := by
  ext y
  simp [or_and_right, exists_or]

/-- The points of one interval more. -/
theorem iUnion_points_cons (i : Interval) (l : List Interval) :
    (⋃ j ∈ i :: l, j.points) = i.points ∪ ⋃ j ∈ l, j.points := by
  ext y
  simp

/-- **An interval is exchanged** for one that holds the new one, too. -/
theorem inserted_set (hsorted : (pre ++ j :: post).Pairwise fun i j => i.stop < j.start)
    (hvalid : ∀ i ∈ pre ++ j :: post, i.start ≤ i.stop) (hle : tmp.start ≤ tmp.stop)
    (hpre : ∀ i ∈ pre, i.stop < tmp.start) (hpost : ∀ i ∈ post, tmp.stop < i.start)
    (hpoints : tmp.points = j.points ∪ newInterval.points) (hmeet : ¬ Disjoint j.points newInterval.points) :
    Inserted (pre ++ j :: post) newInterval (pre ++ tmp :: post) := by
  rw [List.pairwise_append, List.pairwise_cons] at hsorted
  obtain ⟨hspre, ⟨-, hspost⟩, hacross⟩ := hsorted
  refine ⟨(sorted_iff fun i hi => ?_).mpr ?_, ?_, fun i hi hdisjoint => ?_⟩
  · simp only [List.mem_append, List.mem_cons] at hi hvalid
    rcases hi with hi | rfl | hi
    · exact hvalid i (.inl hi)
    · exact hle
    · exact hvalid i (.inr (.inr hi))
  · refine List.pairwise_append.mpr ⟨hspre, List.pairwise_cons.mpr ⟨hpost, hspost⟩, fun i hi k hk => ?_⟩
    rcases List.mem_cons.mp hk with rfl | hk
    · exact hpre i hi
    · exact hacross i hi k (List.mem_cons_of_mem j hk)
  · simp only [iUnion_points_append, iUnion_points_cons, hpoints]
    ext y
    simp only [Set.mem_union]
    tauto
  · simp only [List.mem_append, List.mem_cons] at hi ⊢
    rcases hi with hi | rfl | hi
    · exact .inl hi
    · exact absurd hdisjoint hmeet
    · exact .inr (.inr hi)

/-- **More than one interval** is to be erased: one of them is left. -/
theorem not_sorted_of_erased (hres : (eraseLoop (count + 2) k l).bind (insertAt · k tmp) = some res)
    (hj : l[k + 1]? = some j) (hmeet : j.start ≤ tmp.stop) (hvalid : j.start ≤ j.stop)
    (htmp : tmp.start ≤ tmp.stop) : ¬ Sorted res := by
  intro hsorted
  obtain ⟨l', hl', hins⟩ := Option.bind_eq_some_iff.mp hres
  rw [insertAt] at hins
  split_ifs at hins with hk
  obtain rfl := Option.some.inj hins
  have hfirst : (l'.insertIdx k tmp)[k]? = some tmp := by
    rw [List.getElem?_insertIdx_self, if_pos hk]
  have hsecond : (l'.insertIdx k tmp)[k + 1]? = some j := by
    rw [List.getElem?_insertIdx_of_gt (Nat.lt_succ_self k), Nat.succ_sub_one, eraseLoop_next hl', hj]
  obtain ⟨hk₁, hget₁⟩ := List.getElem?_eq_some_iff.mp hfirst
  obtain ⟨hk₂, hget₂⟩ := List.getElem?_eq_some_iff.mp hsecond
  have hstart := List.pairwise_iff_getElem.mp hsorted.start k (k + 1) hk₁ hk₂ (Nat.lt_succ_self k)
  have hdisjoint := List.pairwise_iff_getElem.mp hsorted.disjoint k (k + 1) hk₁ hk₂ (Nat.lt_succ_self k)
  rw [hget₁, hget₂] at hstart hdisjoint
  have := (lt_iff htmp hvalid).mpr ⟨hstart, hdisjoint⟩
  omega

/-- The new interval ends before the first one does, begins behind the begin of the last one, or is a part of
one. -/
def OneChanges (intervals : List Interval) (newInterval : Interval) : Prop :=
  (∃ i, intervals.head? = some i ∧ newInterval.stop ≤ i.stop) ∨
    (∃ i, intervals.getLast? = some i ∧ i.start ≤ newInterval.start) ∨
      ∃ i ∈ intervals, i.start ≤ newInterval.start ∧ newInterval.stop ≤ i.stop

/-- At most one interval has to be changed. Where the number of intervals is no `int`, the new one is in front of all
of them, behind all of them, or, if the number is taken for zero, it holds all of them. -/
def Works (intervals : List Interval) (newInterval : Interval) : Prop :=
  if intOf intervals.length = 0 then
    ∀ i ∈ intervals, newInterval.start ≤ i.start ∧ i.stop ≤ newInterval.stop
  else if 0 < intOf intervals.length then OneChanges intervals newInterval
  else
    (∃ i, intervals.head? = some i ∧ newInterval.stop < i.start) ∨
      ∃ i, intervals.getLast? = some i ∧ i.stop < newInterval.start

/-- There are not more disjoint intervals than `int`s. -/
theorem length_le (hsorted : l.Pairwise fun i j => i.stop < j.start) (hvalid : ∀ i ∈ l, i.Valid) :
    l.length ≤ 2 ^ 32 := by
  have hnodup : (l.map Interval.start).Nodup := by
    refine List.pairwise_map.mpr (hsorted.imp_of_mem fun {i j} hi _ hij => ?_)
    have := (hvalid i hi).le
    omega
  have hsub : (l.map Interval.start).toFinset ⊆ Finset.Ico (-2 ^ 31) (2 ^ 31) := by
    intro x hx
    obtain ⟨i, hi, rfl⟩ := List.mem_map.mp (List.mem_toFinset.mp hx)
    have hlower := (hvalid i hi).lower
    have hle := (hvalid i hi).le
    have hupper := (hvalid i hi).upper
    exact Finset.mem_Ico.mpr ⟨hlower, by omega⟩
  have hcard := Finset.card_le_card hsub
  rw [List.toFinset_card_of_nodup hnodup, List.length_map, Int.card_Ico] at hcard
  omega

/-- An earlier interval ends in front of a later one. -/
theorem lt_of_getElem? (hsorted : l.Pairwise fun i j => i.stop < j.start) {m : ℕ} (hi : l[k]? = some i)
    (hj : l[m]? = some j) (hkm : k < m) : i.stop < j.start := by
  obtain ⟨hk, rfl⟩ := List.getElem?_eq_some_iff.mp hi
  obtain ⟨hm, rfl⟩ := List.getElem?_eq_some_iff.mp hj
  exact List.pairwise_iff_getElem.mp hsorted k m hk hm hkm

/-- The ends rise with the places. -/
theorem le_of_getElem? (hsorted : l.Pairwise fun i j => i.stop < j.start) (hvalid : ∀ i ∈ l, i.start ≤ i.stop)
    {m : ℕ} (hi : l[k]? = some i) (hj : l[m]? = some j) (hkm : k ≤ m) : i.start ≤ j.start ∧ i.stop ≤ j.stop := by
  rcases hkm.eq_or_lt with rfl | hkm
  · obtain rfl := Option.some.inj (hi.symm.trans hj)
    exact ⟨le_refl _, le_refl _⟩
  · have hlt := lt_of_getElem? hsorted hi hj hkm
    have := hvalid i (List.mem_of_getElem? hi)
    have := hvalid j (List.mem_of_getElem? hj)
    omega

/-- **In front of all intervals.** -/
theorem inserted_front (hsorted : l.Pairwise fun i j => i.stop < j.start) (hvalid : ∀ i ∈ l, i.start ≤ i.stop)
    (hnew : newInterval.start ≤ newInterval.stop) (hi : l[0]? = some i) (h : newInterval.stop < i.start) :
    Inserted l newInterval (newInterval :: l) := by
  have hfront : ∀ j ∈ l, newInterval.stop < j.start := by
    intro j hj
    obtain ⟨k, hk⟩ := List.mem_iff_getElem?.mp hj
    exact h.trans_le (le_of_getElem? hsorted hvalid hi hk (Nat.zero_le k)).1
  refine ⟨(sorted_iff (List.forall_mem_cons.mpr ⟨hnew, hvalid⟩)).mpr (List.pairwise_cons.mpr ⟨hfront, hsorted⟩), ?_,
    fun i hi _ => List.mem_cons_of_mem _ hi⟩
  rw [iUnion_points_cons, Set.union_comm]

/-- **Behind all intervals.** -/
theorem inserted_back_iff (hsorted : l.Pairwise fun i j => i.stop < j.start) (hvalid : ∀ i ∈ l, i.start ≤ i.stop)
    (hnew : newInterval.start ≤ newInterval.stop) (hi : l[l.length - 1]? = some i) :
    Inserted l newInterval (l ++ [newInterval]) ↔ i.stop < newInterval.start := by
  have hmem := List.mem_of_getElem? hi
  constructor
  · intro h
    have hstart := (List.pairwise_append.mp h.sorted.start).2.2 i hmem _ (List.mem_singleton_self _)
    have hdisjoint := (List.pairwise_append.mp h.sorted.disjoint).2.2 i hmem _ (List.mem_singleton_self _)
    exact (lt_iff (hvalid i hmem) hnew).mpr ⟨hstart, hdisjoint⟩
  · intro h
    have hback : ∀ j ∈ l, j.stop < newInterval.start := by
      intro j hj
      obtain ⟨k, hk⟩ := List.mem_iff_getElem?.mp hj
      have hlt := (List.getElem?_eq_some_iff.mp hk).1
      exact (le_of_getElem? hsorted hvalid hk hi (by omega)).2.trans_lt h
    refine ⟨(sorted_iff ?_).mpr (List.pairwise_append.mpr ⟨hsorted, List.pairwise_singleton _ _, ?_⟩), ?_,
      fun i hi _ => List.mem_append_left _ hi⟩
    · simp only [List.mem_append, List.mem_singleton]
      rintro j (hj | rfl)
      · exact hvalid j hj
      · exact hnew
    · intro j hj k hk
      rw [List.mem_singleton.mp hk]
      exact hback j hj
    · rw [iUnion_points_append]
      simp

/-! ## The cases -/

/-- What is inserted is right. -/
def InsertsRight (intervals : List Interval) (newInterval : Interval) : Prop :=
  ∃ res, insertInterval intervals newInterval = some res ∧ Inserted intervals newInterval res

section

variable (hsorted : l.Pairwise fun i j => i.stop < j.start) (hvalid : ∀ i ∈ l, i.start ≤ i.stop)
  (hnew : newInterval.start ≤ newInterval.stop) (hn : l.length < 2 ^ 31)

include hsorted hvalid hnew hn

/-- Neither end is in an interval. -/
theorem right_iff_of_none (hnil : l ≠ []) (hl : findInterval l.length l newInterval.start = none)
    (hr : findInterval l.length l newInterval.stop = none) : InsertsRight l newInterval ↔ OneChanges l newInterval := by
  have hpos := List.length_pos_iff.mpr hnil
  have hfirst : l[0]? = some l[0] := List.getElem?_eq_getElem hpos
  have hlast : l[l.length - 1]? = some l[l.length - 1] := List.getElem?_eq_getElem _
  have hnl := findInterval_eq_none hl
  have hnr := findInterval_eq_none hr
  rw [InsertsRight, OneChanges, insertInterval_none hn hl hr hfirst, List.head?_eq_getElem?, List.getLast?_eq_getElem?,
    hfirst, hlast]
  have hmem := List.getElem_mem hpos
  have hv := hvalid _ hmem
  split_ifs with hfront
  · exact ⟨fun _ => .inl ⟨_, rfl, by omega⟩, fun _ => ⟨_, rfl, inserted_front hsorted hvalid hnew hfirst hfront⟩⟩
  · have hback := inserted_back_iff hsorted hvalid hnew hlast
    have hvlast := hvalid _ (List.mem_of_getElem? hlast)
    constructor
    · rintro ⟨res, hres, hins⟩
      obtain rfl := Option.some.inj hres
      exact .inr (.inl ⟨_, rfl, hvlast.trans (hback.mp hins).le⟩)
    · rintro (⟨i, hi, hle⟩ | ⟨i, hi, hle⟩ | ⟨i, hi, hle⟩)
      · obtain rfl := Option.some.inj hi
        exact absurd ⟨by omega, hle⟩ (hnr _ hmem)
      · obtain rfl := Option.some.inj hi
        have := hnl _ (List.mem_of_getElem? hlast)
        exact ⟨_, rfl, hback.mpr (by omega)⟩
      · exact absurd ⟨hle.1, hnew.trans hle.2⟩ (hnl i hi)

/-- Only the end is in an interval. -/
theorem right_iff_of_right (hl : findInterval l.length l newInterval.start = none)
    (hr : findInterval l.length l newInterval.stop = some k) : InsertsRight l newInterval ↔ OneChanges l newInterval := by
  obtain ⟨j, hj, hstart, hstop⟩ := findInterval_eq_some hr
  have hnl := findInterval_eq_none hl
  have hjl := hnl j (List.mem_of_getElem? hj)
  have hvj := hvalid j (List.mem_of_getElem? hj)
  have hk := (List.getElem?_eq_some_iff.mp hj).1
  rw [InsertsRight, insertInterval_right hn hl hr hj, OneChanges, List.head?_eq_getElem?, List.getLast?_eq_getElem?]
  cases k with
  | zero =>
      obtain ⟨first, rest, rfl⟩ := List.exists_cons_of_length_pos hk
      obtain rfl : first = j := Option.some.inj hj
      rw [eraseLoop_one hk]
      refine ⟨fun _ => .inl ⟨_, hj, hstop⟩, fun _ => ⟨_, rfl, ?_⟩⟩
      have hmeet : ¬ Disjoint first.points newInterval.points := fun h =>
        Set.disjoint_left.mp h (cast_mem_points.mpr ⟨hstart, hstop⟩) (cast_mem_points.mpr ⟨hnew, le_refl _⟩)
      change Inserted ([] ++ first :: rest) newInterval ([] ++ _ :: rest)
      refine inserted_set hsorted hvalid ?_ (by simp) ?_ ?_ hmeet
      · exact hnew.trans (le_max_left _ _)
      · rw [max_eq_right hstop]
        exact (List.pairwise_cons.mp hsorted).1
      · have := points_union (hstart.trans (le_refl _)) (hnew.trans hstop)
        rwa [min_eq_left (by omega)] at this
  | succ k =>
      have hsecond : l[1]? = some l[1] := List.getElem?_eq_getElem (by omega)
      have hle := le_of_getElem? hsorted hvalid hsecond hj (by omega)
      have hv := hvalid _ (List.mem_of_getElem? hsecond)
      constructor
      · rintro ⟨res, hres, hins⟩
        refine absurd hins.sorted (not_sorted_of_erased hres hsecond ?_ hv ?_)
        · exact hv.trans (hle.2.trans (le_max_right _ _))
        · exact hnew.trans (le_max_left _ _)
      · rintro (⟨i, hi, hle⟩ | ⟨i, hi, hle⟩ | ⟨i, hi, hle⟩)
        · have := lt_of_getElem? hsorted hi hj (Nat.zero_lt_succ k)
          omega
        · have := (le_of_getElem? hsorted hvalid hj hi (by omega)).2
          have := hnl i (List.mem_of_getElem? hi)
          omega
        · exact absurd ⟨hle.1, hnew.trans hle.2⟩ (hnl i hi)

/-- Only the begin is in an interval. -/
theorem right_iff_of_left (hl : findInterval l.length l newInterval.start = some k)
    (hr : findInterval l.length l newInterval.stop = none) : InsertsRight l newInterval ↔ OneChanges l newInterval := by
  obtain ⟨j, hj, hstart, hstop⟩ := findInterval_eq_some hl
  have hnr := findInterval_eq_none hr
  have hjr := hnr j (List.mem_of_getElem? hj)
  have hk := (List.getElem?_eq_some_iff.mp hj).1
  rw [InsertsRight, insertInterval_left hn hl hr hj, OneChanges, List.head?_eq_getElem?, List.getLast?_eq_getElem?]
  rcases Nat.lt_or_ge (k + 1) l.length with hlt | hge
  · have hlast : l[l.length - 1]? = some l[l.length - 1] := List.getElem?_eq_getElem _
    constructor
    · rintro ⟨res, hres, -⟩
      obtain ⟨l', hl', -⟩ := Option.bind_eq_some_iff.mp hres
      obtain ⟨count, hcount⟩ : ∃ count, l.length - k = count + 1 := ⟨l.length - k - 1, by omega⟩
      rw [hcount] at hl'
      have := eraseLoop_length hl'
      omega
    · rintro (⟨i, hi, hle⟩ | ⟨i, hi, hle⟩ | ⟨i, hi, hle⟩)
      · have := (le_of_getElem? hsorted hvalid hi hj (Nat.zero_le k)).2
        omega
      · have := lt_of_getElem? hsorted hj hi (by omega)
        omega
      · exact absurd ⟨hle.1.trans hnew, hle.2⟩ (hnr i hi)
  · obtain rfl : k = l.length - 1 := by omega
    have hone : l.length - (l.length - 1) = 1 := by omega
    rw [hone, eraseLoop_one hk]
    refine ⟨fun _ => .inr (.inl ⟨j, hj, hstart⟩), fun _ => ⟨_, rfl, ?_⟩⟩
    rw [← List.getLast?_eq_getElem?] at hj
    obtain ⟨pre, rfl⟩ := List.getLast?_eq_some_iff.mp hj
    have hset : ∀ tmp, (pre ++ [j]).set ((pre ++ [j]).length - 1) tmp = pre ++ [tmp] := by simp
    have hmeet : ¬ Disjoint j.points newInterval.points := fun h =>
      Set.disjoint_left.mp h (cast_mem_points.mpr ⟨hstart, hstop⟩) (cast_mem_points.mpr ⟨le_refl _, hnew⟩)
    rw [hset, min_eq_right hstart]
    refine inserted_set hsorted hvalid (hstart.trans hnew) ?_ (by simp) ?_ hmeet
    · exact fun i hi => (List.pairwise_append.mp hsorted).2.2 i hi j (List.mem_singleton_self j)
    · have := points_union (hstart.trans hnew) hstop
      rwa [min_eq_right hstart, max_eq_left (by omega)] at this

/-- Both ends are in intervals. -/
theorem right_iff_of_both {m : ℕ} (hl : findInterval l.length l newInterval.start = some k)
    (hr : findInterval l.length l newInterval.stop = some m) : InsertsRight l newInterval ↔ OneChanges l newInterval := by
  obtain ⟨i, hi, hil, hir⟩ := findInterval_eq_some hl
  obtain ⟨j, hj, hjl, hjr⟩ := findInterval_eq_some hr
  have hkm : k ≤ m := by
    by_contra hmk
    have := lt_of_getElem? hsorted hj hi (not_le.mp hmk)
    omega
  rw [InsertsRight, insertInterval_both hn hl hr hi hj hkm, OneChanges, List.head?_eq_getElem?, List.getLast?_eq_getElem?]
  have hm := (List.getElem?_eq_some_iff.mp hj).1
  have hvi := hvalid i (List.mem_of_getElem? hi)
  rcases hkm.eq_or_lt with rfl | hlt
  · obtain rfl : i = j := Option.some.inj (hi.symm.trans hj)
    have himem := List.mem_of_getElem? hi
    refine ⟨fun _ => .inr (.inr ⟨i, himem, hil, hjr⟩), fun _ => ⟨l, ?_, (sorted_iff hvalid).mpr hsorted, ?_,
      fun i hi _ => hi⟩⟩
    · obtain ⟨hk, rfl⟩ := List.getElem?_eq_some_iff.mp hi
      rw [Nat.sub_self, zero_add, eraseLoop_one hm, min_eq_right hil, max_eq_right hjr, List.set_getElem_self]
    · refine (Set.union_eq_self_of_subset_right fun y hy => ?_).symm
      have hcast : (i.start : ℝ) ≤ newInterval.start := by exact_mod_cast hil
      have hcast' : (newInterval.stop : ℝ) ≤ i.stop := by exact_mod_cast hjr
      exact Set.mem_biUnion himem ⟨hcast.trans hy.1, hy.2.trans hcast'⟩
  · have hsecond : l[k + 1]? = some l[k + 1] := List.getElem?_eq_getElem (by omega)
    have hle := le_of_getElem? hsorted hvalid hsecond hj (by omega)
    have hv := hvalid _ (List.mem_of_getElem? hsecond)
    have hij := lt_of_getElem? hsorted hi hj hlt
    have hlast : l[l.length - 1]? = some l[l.length - 1] := List.getElem?_eq_getElem _
    obtain ⟨count, hcount⟩ : ∃ count, m - k + 1 = count + 2 := ⟨m - k - 1, by omega⟩
    rw [hcount]
    constructor
    · rintro ⟨res, hres, hins⟩
      refine absurd hins.sorted (not_sorted_of_erased hres hsecond ?_ hv ?_)
      · exact hv.trans (hle.2.trans (le_max_right _ _))
      · exact (min_le_left _ _).trans (hnew.trans (le_max_left _ _))
    · rintro (⟨x, hx, hxle⟩ | ⟨x, hx, hxle⟩ | ⟨x, hx, hxle⟩)
      · have := (le_of_getElem? hsorted hvalid hx hi (Nat.zero_le k)).2
        omega
      · have := (le_of_getElem? hsorted hvalid hj hx (by omega)).1
        omega
      · -- the interval that holds both ends would be the one of each
        obtain ⟨c, hc⟩ := List.mem_iff_getElem?.mp hx
        rcases Nat.lt_or_ge k c with hkc | hck
        · have := lt_of_getElem? hsorted hi hc hkc
          omega
        · have := lt_of_getElem? hsorted hc hj (by omega)
          omega

end

/-- The number of intervals is taken for zero. -/
theorem right_iff_of_zero (hvalid : ∀ i ∈ l, i.start ≤ i.stop) (h : intOf l.length = 0) :
    InsertsRight l newInterval ↔ ∀ i ∈ l, newInterval.start ≤ i.start ∧ i.stop ≤ newInterval.stop := by
  have hres : insertInterval l newInterval = some [newInterval] := by
    rw [insertInterval, if_pos h]
  constructor
  · rintro ⟨res, hres', hins⟩ i hi
    obtain rfl := Option.some.inj (hres.symm.trans hres')
    have hsub : i.points ⊆ newInterval.points := by
      intro y hy
      have hcovers := hins.covers
      simp only [List.mem_singleton, Set.iUnion_iUnion_eq_left] at hcovers
      rw [hcovers]
      exact .inl (Set.mem_biUnion hi hy)
    have hv := hvalid i hi
    exact ⟨(cast_mem_points.mp (hsub (cast_mem_points.mpr ⟨le_refl _, hv⟩))).1,
      (cast_mem_points.mp (hsub (cast_mem_points.mpr ⟨hv, le_refl _⟩))).2⟩
  · intro hall
    have hsub : ∀ i ∈ l, i.points ⊆ newInterval.points := by
      intro i hi y hy
      have hstart : (newInterval.start : ℝ) ≤ i.start := by exact_mod_cast (hall i hi).1
      have hstop : (i.stop : ℝ) ≤ newInterval.stop := by exact_mod_cast (hall i hi).2
      exact ⟨hstart.trans hy.1, hy.2.trans hstop⟩
    refine ⟨_, hres, ⟨List.pairwise_singleton _ _, List.pairwise_singleton _ _⟩, ?_, fun i hi hdisjoint => ?_⟩
    · simp only [List.mem_singleton, Set.iUnion_iUnion_eq_left]
      exact (Set.union_eq_self_of_subset_left (Set.iUnion₂_subset hsub)).symm
    · have hmem : (i.start : ℝ) ∈ i.points := cast_mem_points.mpr ⟨le_refl _, hvalid i hi⟩
      exact absurd (hsub i hi hmem) (Set.disjoint_left.mp hdisjoint hmem)

/-- The number of intervals is taken for a negative one. -/
theorem right_iff_of_neg (hsorted : l.Pairwise fun i j => i.stop < j.start) (hvalid : ∀ i ∈ l, i.start ≤ i.stop)
    (hnew : newInterval.start ≤ newInterval.stop) (h : intOf l.length < 0) :
    InsertsRight l newInterval ↔ (∃ i, l.head? = some i ∧ newInterval.stop < i.start) ∨
      ∃ i, l.getLast? = some i ∧ i.stop < newInterval.start := by
  have hpos : 0 < l.length := by
    by_contra hzero
    rw [Nat.eq_zero_of_not_pos hzero] at h
    exact absurd h (by decide)
  have hfind : ∀ x, findInterval (intOf l.length) l x = none := by
    intro x
    rw [findInterval, Int.toNat_of_nonpos h.le, List.take_zero, List.findIdx?_nil]
  have hfirst : l[0]? = some l[0] := List.getElem?_eq_getElem hpos
  have hlast : l[l.length - 1]? = some l[l.length - 1] := List.getElem?_eq_getElem _
  have hres : insertInterval l newInterval =
      if newInterval.stop < l[0].start then some (newInterval :: l) else some (l ++ [newInterval]) := by
    simp [insertInterval, h.ne, hfind, hfirst, insertAt]
  rw [InsertsRight, hres, List.head?_eq_getElem?, List.getLast?_eq_getElem?, hfirst, hlast]
  split_ifs with hfront
  · exact ⟨fun _ => .inl ⟨_, rfl, hfront⟩, fun _ => ⟨_, rfl, inserted_front hsorted hvalid hnew hfirst hfront⟩⟩
  · have hback := inserted_back_iff hsorted hvalid hnew hlast
    constructor
    · rintro ⟨res, hres, hins⟩
      obtain rfl := Option.some.inj hres
      exact .inr ⟨_, rfl, hback.mp hins⟩
    · rintro (⟨i, hi, hlt⟩ | ⟨i, hi, hlt⟩)
      · obtain rfl := Option.some.inj hi
        exact absurd hlt hfront
      · obtain rfl := Option.some.inj hi
        exact ⟨_, rfl, hback.mpr hlt⟩

/-- **When what is returned is right.** -/
theorem insertInterval_iff (intervals : List Interval) (newInterval : Interval)
    (hvalid : ∀ i ∈ intervals, i.Valid) (hsorted : Sorted intervals) (hnew : newInterval.Valid) :
    (∃ res, insertInterval intervals newInterval = some res ∧ Inserted intervals newInterval res) ↔
      Works intervals newInterval := by
  have hle : ∀ i ∈ intervals, i.start ≤ i.stop := fun i hi => (hvalid i hi).le
  rw [sorted_iff hle] at hsorted
  rw [Works]
  split_ifs with hzero hpos
  · exact right_iff_of_zero hle hzero
  · have hn : intervals.length < 2 ^ 31 := by
      by_contra hlong
      have := lt_of_intOf_pos hpos (not_lt.mp hlong)
      have := length_le hsorted hvalid
      omega
    have hnil : intervals ≠ [] := by
      rintro rfl
      exact hzero (by decide)
    cases hl : findInterval intervals.length intervals newInterval.start with
    | none =>
        cases hr : findInterval intervals.length intervals newInterval.stop with
        | none => exact right_iff_of_none hsorted hle hnew.le hn hnil hl hr
        | some m => exact right_iff_of_right hsorted hle hnew.le hn hl hr
    | some k =>
        cases hr : findInterval intervals.length intervals newInterval.stop with
        | none => exact right_iff_of_left hsorted hle hnew.le hn hl hr
        | some m => exact right_iff_of_both hsorted hle hnew.le hn hl hr
  · exact right_iff_of_neg hsorted hle hnew.le (by omega)

/-- The new interval ends in the first one. -/
theorem insertInterval_iff_two :
    (∃ res, insertInterval [⟨3, 5⟩, ⟨8, 9⟩] ⟨1, 4⟩ = some res ∧ Inserted [⟨3, 5⟩, ⟨8, 9⟩] ⟨1, 4⟩ res) ∧
    insertInterval [⟨3, 5⟩, ⟨8, 9⟩] ⟨1, 4⟩ = some [⟨1, 5⟩, ⟨8, 9⟩] := by
  have hvalid : ∀ i ∈ [(⟨3, 5⟩ : Interval), ⟨8, 9⟩], i.Valid := by
    simp only [List.forall_mem_cons]
    exact ⟨⟨by norm_num, by norm_num, by norm_num⟩, ⟨by norm_num, by norm_num, by norm_num⟩, by simp⟩
  have hsorted : Sorted [⟨3, 5⟩, ⟨8, 9⟩] := (sorted_iff fun i hi => (hvalid i hi).le).mpr (by simp)
  refine ⟨(insertInterval_iff [⟨3, 5⟩, ⟨8, 9⟩] ⟨1, 4⟩ hvalid hsorted ⟨by norm_num, by norm_num, by norm_num⟩).mpr ?_,
    by decide +kernel⟩
  have hlen : intOf [(⟨3, 5⟩ : Interval), ⟨8, 9⟩].length = 2 := by rfl
  rw [Works, hlen, if_neg two_ne_zero, if_pos two_pos]
  exact .inl ⟨_, rfl, by norm_num⟩

/-- The new interval stands in a gap: it is put behind. -/
theorem insertInterval_gap : Sorted [⟨1, 2⟩, ⟨7, 8⟩] ∧
    insertInterval [⟨1, 2⟩, ⟨7, 8⟩] ⟨4, 5⟩ = some [⟨1, 2⟩, ⟨7, 8⟩, ⟨4, 5⟩] ∧
    ¬ ∃ res, insertInterval [⟨1, 2⟩, ⟨7, 8⟩] ⟨4, 5⟩ = some res ∧ Inserted [⟨1, 2⟩, ⟨7, 8⟩] ⟨4, 5⟩ res := by
  have hres : insertInterval [⟨1, 2⟩, ⟨7, 8⟩] ⟨4, 5⟩ = some [⟨1, 2⟩, ⟨7, 8⟩, ⟨4, 5⟩] := by decide +kernel
  refine ⟨(sorted_iff (by simp)).mpr (by simp), hres, ?_⟩
  rintro ⟨res, hres', hins⟩
  obtain rfl := Option.some.inj (hres.symm.trans hres')
  have := hins.sorted.start
  simp at this

end Asenal.Acm
