import Mathlib.Algebra.BigOperators.Group.List.Basic
import Mathlib.Order.Bounds.Basic
import Asenal.Lib.Checked

/-!
# Lowering altitudes

`minCost` keeps the least altitude so far, and lowers each one that is above it. The number of altitudes is
kept as an `int`.

* `isLeast_excess` — no other way of lowering costs less.
* `minCost_iff` — when the call gives the least cost.
-/

namespace Asenal.Topcoder

open Asenal.Lib.Checked

/-! ## The program -/

/-- `now` and `res` behind an altitude. Source: `SkiResortsEasy.cpp` `minCost`, the body of the loop. -/
def costStep (st : ℤ × ℤ) (a : ℤ) : Option (ℤ × ℤ) :=
  let (now, res) := st
  if a > now then (checkInt (a - now)).bind fun d => (checkInt (res + d)).map fun res => (now, res)
  else some (a, res)

/-- Source: `SkiResortsEasy.cpp` `SkiResortsEasy::minCost`. -/
def minCost (altitude : List ℤ) : Option ℤ :=
  let len := intOf altitude.length
  altitude.head?.bind fun now => ((altitude.take len.toNat).tail.foldlM costStep (now, 0)).map Prod.snd

/-! ## Costs -/

/-- The sums of the decreases, over all lists that are not increasing and nowhere above the altitudes. -/
def Costs (altitude : List ℤ) : Set ℤ :=
  {c | ∃ b, List.Forall₂ (· ≤ ·) b altitude ∧ b.Pairwise (· ≥ ·) ∧ c = (List.zipWith (· - ·) altitude b).sum}

/-- The altitudes that are counted. -/
def seen (altitude : List ℤ) : List ℤ := altitude.take (max 1 (intOf altitude.length).toNat)

/-- The other ones. -/
def unseen (altitude : List ℤ) : List ℤ := altitude.drop (max 1 (intOf altitude.length).toNat)

/-- The altitudes that are not counted have to be lowered nowhere. -/
def Quiet (altitude : List ℤ) : Prop :=
  (unseen altitude).Pairwise (· ≥ ·) ∧ ∀ a ∈ seen altitude, ∀ b ∈ unseen altitude, b ≤ a

/-- The altitudes, lowered to the least one so far. -/
def lowered (now : ℤ) : List ℤ → List ℤ
  | [] => []
  | a :: as => min now a :: lowered (min now a) as

/-- What that costs. -/
def excess (now : ℤ) : List ℤ → ℤ
  | [] => 0
  | a :: as => a - min now a + excess (min now a) as

variable {now a res : ℤ} {as bs b altitude : List ℤ}

/-- No cost is negative. -/
theorem excess_nonneg (now : ℤ) (as : List ℤ) : 0 ≤ excess now as := by
  induction as generalizing now with
  | nil => exact le_refl 0
  | cons a as ih =>
      rw [excess]
      have := ih (min now a)
      omega

/-- The cost of a list behind another. -/
theorem excess_append (now : ℤ) (as bs : List ℤ) :
    excess now (as ++ bs) = excess now as + excess (as.foldl min now) bs := by
  induction as generalizing now with
  | nil => simp [excess]
  | cons a as ih => simp [excess, ih, add_assoc]

/-- **No other way costs less.** -/
theorem excess_le (hle : List.Forall₂ (· ≤ ·) b as) (hsorted : b.Pairwise (· ≥ ·)) (hnow : ∀ x ∈ b, x ≤ now) :
    excess now as ≤ (List.zipWith (· - ·) as b).sum := by
  induction hle generalizing now with
  | nil => exact le_refl 0
  | @cons x a b as hx hle ih =>
      obtain ⟨hfirst, hsorted⟩ := List.pairwise_cons.mp hsorted
      rw [List.forall_mem_cons] at hnow
      have hrest : excess (min now a) as ≤ (List.zipWith (· - ·) as b).sum := ih hsorted fun y hy =>
        le_min (hnow.2 y hy) ((hfirst y hy).trans hx)
      rw [excess, List.zipWith_cons_cons, List.sum_cons]
      omega

/-- No altitude stays above the first one. -/
theorem lowered_le (now : ℤ) (as : List ℤ) : ∀ x ∈ lowered now as, x ≤ now := by
  induction as generalizing now with
  | nil => exact fun x hx => absurd hx List.not_mem_nil
  | cons a as ih =>
      rw [lowered, List.forall_mem_cons]
      exact ⟨min_le_left _ _, fun x hx => (ih _ x hx).trans (min_le_left _ _)⟩

/-- What is lowered does not rise, and costs the excess. -/
theorem lowered_spec (now : ℤ) (as : List ℤ) : List.Forall₂ (· ≤ ·) (lowered now as) as ∧
    (lowered now as).Pairwise (· ≥ ·) ∧ excess now as = (List.zipWith (· - ·) as (lowered now as)).sum := by
  induction as generalizing now with
  | nil => exact ⟨.nil, .nil, rfl⟩
  | cons a as ih =>
      obtain ⟨hle, hsorted, hcost⟩ := ih (min now a)
      refine ⟨.cons (min_le_right _ _) hle, List.pairwise_cons.mpr ⟨lowered_le _ _, hsorted⟩, ?_⟩
      rw [excess, lowered, List.zipWith_cons_cons, List.sum_cons, hcost]

/-- **The least cost.** -/
theorem isLeast_excess (a : ℤ) (as : List ℤ) : IsLeast (Costs (a :: as)) (excess a as) := by
  have hfirst : excess a as = excess a (a :: as) := by simp [excess]
  rw [hfirst]
  constructor
  · exact ⟨_, lowered_spec a (a :: as)⟩
  · rintro c ⟨b, hle, hsorted, rfl⟩
    refine excess_le hle hsorted fun x hx => ?_
    cases hle with
    | @cons y _ b _ hy hle =>
        rcases List.mem_cons.mp hx with rfl | hx
        · exact hy
        · exact ((List.pairwise_cons.mp hsorted).1 x hx).trans hy

/-! ## The loop -/

/-- **The loop** keeps the least altitude so far, and the cost. -/
theorem costLoop (hres : 0 ≤ res) (hsum : res + excess now as < 2 ^ 31) :
    as.foldlM costStep (now, res) = some (as.foldl min now, res + excess now as) := by
  induction as generalizing now res with
  | nil => simp [excess]
  | cons a as ih =>
      rw [excess] at hsum ⊢
      have hrest := excess_nonneg (min now a) as
      rw [List.foldlM_cons, List.foldl_cons]
      by_cases hlt : a > now
      · rw [min_eq_left hlt.le] at hsum hrest ⊢
        have hd : checkInt (a - now) = some (a - now) := checkInt_of_lt (by omega) (by omega)
        have hr : checkInt (res + (a - now)) = some (res + (a - now)) := checkInt_of_lt (by omega) (by omega)
        have hstep : costStep (now, res) a = some (now, res + (a - now)) := by
          simp [costStep, hlt, hd, hr]
        have hloop := @ih now (res + (a - now)) (by omega) (by omega)
        rw [hstep, Option.bind_eq_bind, Option.bind_some, hloop, add_assoc]
      · rw [min_eq_right (not_lt.mp hlt)] at hsum hrest ⊢
        have hstep : costStep (now, res) a = some (a, res) := if_neg hlt
        rw [sub_self, zero_add] at hsum ⊢
        rw [hstep, Option.bind_eq_bind, Option.bind_some, ih hres hsum]

/-- Nothing has to be lowered in a list that does not rise. -/
theorem excess_eq_zero_iff : excess now bs = 0 ↔ bs.Pairwise (· ≥ ·) ∧ ∀ b ∈ bs, b ≤ now := by
  induction bs generalizing now with
  | nil => simp [excess]
  | cons b bs ih =>
      have hnonneg := excess_nonneg (min now b) bs
      have hsplit : excess now (b :: bs) = 0 ↔ b ≤ now ∧ excess (min now b) bs = 0 := by
        rw [excess]
        omega
      rw [hsplit, List.pairwise_cons, List.forall_mem_cons]
      constructor
      · rintro ⟨hb, hzero⟩
        rw [min_eq_right hb, ih] at hzero
        exact ⟨⟨hzero.2, hzero.1⟩, hb, fun x hx => (hzero.2 x hx).trans hb⟩
      · rintro ⟨⟨hfirst, hsorted⟩, hb, -⟩
        rw [min_eq_right hb, ih]
        exact ⟨hb, hsorted, hfirst⟩

/-- The bounds of a running minimum. -/
theorem le_foldl_min_iff {y : ℤ} : y ≤ as.foldl min now ↔ ∀ a ∈ now :: as, y ≤ a := by
  induction as generalizing now with
  | nil => simp
  | cons a as ih => simp [ih, and_assoc]

/-- A list, cut behind `n` elements, the first one being in the front part. -/
theorem take_drop_max_one (a : ℤ) (as : List ℤ) (n : ℕ) : (a :: as).take (max 1 n) = a :: as.take (n - 1) ∧
    (a :: as).drop (max 1 n) = as.drop (n - 1) ∧ ((a :: as).take n).tail = as.take (n - 1) := by
  cases n with
  | zero => simp
  | succ n => simp

/-- The loop sums the excess of the altitudes that it sees. -/
theorem minCost_eq (h : excess a (as.take ((intOf (a :: as).length).toNat - 1)) < 2 ^ 31) :
    minCost (a :: as) = some (excess a (as.take ((intOf (a :: as).length).toNat - 1))) := by
  have hloop := costLoop (le_refl 0) ((zero_add _).trans_lt h)
  unfold minCost
  simp only [List.head?_cons, Option.bind_some, (take_drop_max_one a as _).2.2]
  rw [hloop, Option.map_some, zero_add]

/-- The altitudes that are not counted cost nothing where they have to be lowered nowhere. -/
theorem quiet_iff : Quiet (a :: as) ↔ excess ((as.take ((intOf (a :: as).length).toNat - 1)).foldl min a)
    (as.drop ((intOf (a :: as).length).toNat - 1)) = 0 := by
  obtain ⟨htake, hdrop, -⟩ := take_drop_max_one a as (intOf (a :: as).length).toNat
  simp only [Quiet, seen, unseen, htake, hdrop, excess_eq_zero_iff, le_foldl_min_iff]
  exact and_congr_right fun _ => ⟨fun h y hy x hx => h x hx y hy, fun h x hx y hy => h y hy x hx⟩

/-- Fewer than `2 ^ 31` altitudes are all counted. -/
theorem quiet_of_length_lt (h : altitude.length < 2 ^ 31) : Quiet altitude := by
  have hlen : intOf altitude.length = altitude.length := intOf_of_lt h
  have hnil : unseen altitude = [] := by
    unfold unseen
    rw [hlen, List.drop_eq_nil_iff]
    omega
  simp [Quiet, hnil]

/-- **When the least cost is given**: exactly if the altitudes that are not counted have to be lowered
nowhere, and so for every list of fewer than `2 ^ 31` altitudes. -/
theorem minCost_iff (altitude : List ℤ) (hne : altitude ≠ []) (hsum : ∃ c ∈ Costs altitude, c < 2 ^ 31) :
    ((∃ r, minCost altitude = some r ∧ IsLeast (Costs altitude) r) ↔ Quiet altitude) ∧
      (altitude.length < 2 ^ 31 → ∃ r, minCost altitude = some r ∧ IsLeast (Costs altitude) r) := by
  have hiff : (∃ r, minCost altitude = some r ∧ IsLeast (Costs altitude) r) ↔ Quiet altitude := by
    obtain ⟨a, as, rfl⟩ := List.exists_cons_of_ne_nil hne
    obtain ⟨c, hc, hlt⟩ := hsum
    have hleast := isLeast_excess a as
    have hbound : excess a as < 2 ^ 31 := (hleast.2 hc).trans_lt hlt
    -- the cost of the altitudes that are counted, and of the other ones
    have hsplit := excess_append a (as.take ((intOf (a :: as).length).toNat - 1))
      (as.drop ((intOf (a :: as).length).toNat - 1))
    rw [List.take_append_drop] at hsplit
    have hrest := excess_nonneg ((as.take ((intOf (a :: as).length).toNat - 1)).foldl min a)
      (as.drop ((intOf (a :: as).length).toNat - 1))
    rw [quiet_iff, minCost_eq (by omega)]
    constructor
    · rintro ⟨r, hr, hr'⟩
      have := hleast.unique hr'
      have := Option.some.inj hr
      omega
    · intro hzero
      exact ⟨_, rfl, by rwa [hsplit, hzero, add_zero] at hleast⟩
  exact ⟨hiff, fun h => hiff.mpr (quiet_of_length_lt h)⟩

/-- Three altitudes. -/
theorem minCost_iff_three : (∃ r, minCost [5, 7, 3] = some r ∧ IsLeast (Costs [5, 7, 3]) r) ∧
    minCost [5, 7, 3] = some 2 := by
  refine ⟨(minCost_iff [5, 7, 3] (by simp) ⟨2, ⟨[5, 5, 3], by simp, by simp, by simp⟩, by simp⟩).2 ?_, by rfl⟩
  decide

/-- Altitudes of which only the second one has to be lowered. -/
def bump (n : ℕ) : List ℤ := 0 :: 1 :: List.replicate n 0

/-- A step of one behind the first altitude. -/
theorem excess_bump (n : ℕ) : excess 0 (1 :: List.replicate n 0) = 1 := by
  have hzero : excess 0 (List.replicate n 0) = 0 :=
    excess_eq_zero_iff.mpr ⟨List.pairwise_replicate.mpr (.inr (le_refl 0)), fun b hb =>
      (List.eq_of_mem_replicate hb).le⟩
  rw [excess, min_eq_left zero_le_one, hzero]
  rfl

/-- Where no altitude is counted, the call gives zero. -/
theorem minCost_bump {n : ℕ} (h : (intOf (n + 2)).toNat = 0) : minCost (bump n) = some 0 := by
  have hlen : (intOf (bump n).length).toNat = 0 := by
    simpa [bump] using h
  simp only [minCost, hlen]
  rfl

/-- The second one of `2 ^ 31` altitudes has to be lowered by one, and the call gives zero. -/
theorem minCost_overflow : (∃ c ∈ Costs (bump (2 ^ 31 - 2)), c < 2 ^ 31) ∧
    ¬ ∃ r, minCost (bump (2 ^ 31 - 2)) = some r ∧ IsLeast (Costs (bump (2 ^ 31 - 2))) r := by
  have hlen : (intOf (2 ^ 31 - 2 + 2)).toNat = 0 := by rfl
  have hzero := minCost_bump hlen
  generalize 2 ^ 31 - 2 = n at hzero ⊢
  have hleast : IsLeast (Costs (bump n)) 1 := by
    have := isLeast_excess 0 (1 :: List.replicate n 0)
    rwa [excess_bump] at this
  refine ⟨⟨1, hleast.1, by norm_num⟩, ?_⟩
  rintro ⟨r, hr, hr'⟩
  have hr0 : r = 0 := Option.some.inj (hr.symm.trans hzero)
  have hr1 : r = 1 := hr'.unique hleast
  omega

end Asenal.Topcoder
