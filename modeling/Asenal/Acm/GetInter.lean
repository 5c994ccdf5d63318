import Asenal.Lib.Checked
import Asenal.Lib.Linked

/-!
# The node where two lists meet

`getIntersectionNode` measures both lists, reverses the first one in place, measures the second one through the
reversed links, and reverses back. The lengths are kept as `int`s.

* `reverseLoop_spec` — the loop that reverses a list.
* `getIntersectionNode_iff` — when the first node of the second list that is in the first one is returned, and
  every link is as it was.
-/

namespace Asenal.Acm

open Asenal.Lib.Checked Asenal.Lib.Linked

/-! ## The program -/

variable {A : Type}

/-- The last node from `p` on, and the number of links to it. Source: `getInter.cc`
`Solution::getIntersectionNode`, the loops for `ca` and `cb`. -/
def lastNode (next : A → Option A) : ℕ → A → ℤ → Option (A × ℤ)
  | 0, _, _ => none
  | fuel + 1, p, c =>
      match next p with
      | none => some (p, c)
      | some p => (checkInt (c + 1)).bind (lastNode next fuel p)

/-- The links after the nodes from `p` on are reversed, and the last of these nodes. Source: `getInter.cc`
`Solution::getIntersectionNode`, the loops with `s`. -/
def reverseLoop [DecidableEq A] : ℕ → (A → Option A) → Option A → Option A → Option ((A → Option A) × Option A)
  | 0, _, _, _ => none
  | _ + 1, next, none, q => some (next, q)
  | fuel + 1, next, some p, q => reverseLoop fuel (Function.update next p q) (next p) (some p)

/-- The number of nodes from `p` on. Source: `getInter.cc` `Solution::getIntersectionNode`, the loop for `cc`. -/
def countLoop (next : A → Option A) : ℕ → Option A → ℤ → Option ℤ
  | 0, _, _ => none
  | _ + 1, none, cc => some cc
  | fuel + 1, some p, cc => (checkInt (cc + 1)).bind (countLoop next fuel (next p))

/-- The node `t` links from `p` on. Source: `getInter.cc` `Solution::getIntersectionNode`, the last loop. -/
def advance (next : A → Option A) : ℕ → ℤ → Option A → Option (Option A)
  | 0, _, _ => none
  | fuel + 1, t, p => if t = 0 then some p else p.bind fun p => advance next fuel (t - 1) (next p)

/-- The node and the links; `none` where a link of no node is read, a sum is no `int`, or a loop takes more than
`fuel` rounds. Source: `getInter.cc` `Solution::getIntersectionNode`. -/
def getIntersectionNode [DecidableEq A] (fuel : ℕ) (next : A → Option A) : Option A → Option A →
    Option (Option A × (A → Option A))
  | some headA, some headB => do
      let (p, ca) ← lastNode next fuel headA 0
      let (q, cb) ← lastNode next fuel headB 0
      if p ≠ q then some (none, next)
      else
        let (next, tail) ← reverseLoop fuel next (some headA) none
        let cc ← countLoop next fuel (some headB) 0
        let sum ← checkInt (ca + cb)
        let len := Int.tdiv (sum - (cc - 1)) 2
        let (next, _) ← reverseLoop fuel next tail none
        let p ← advance next fuel (cb - len) (some headB)
        some (p, next)
  | _, _ => some (none, next)

/-! ## The loops -/

variable {next next' : A → Option A} {p q tail : Option A} {a b z : A} {l m c la lb : List A} {n : ℤ} {fuel : ℕ}

/-- The last node, and how many nodes there are. -/
theorem lastNode_eq (h : Seg next (some a) (l ++ [z]) none) (hn : 0 ≤ n) (hlt : n < 2 ^ 31)
    (hfuel : l.length < fuel) : lastNode next fuel a n = (checkInt (n + l.length)).map fun n => (z, n) := by
  induction l generalizing a n fuel with
  | nil =>
      obtain ⟨fuel, rfl⟩ := Nat.exists_eq_add_one_of_ne_zero (Nat.ne_of_gt hfuel)
      obtain rfl : a = z := Option.some.inj h.1
      have hnext : next a = none := h.2
      simp [lastNode, hnext, checkInt_of_lt hn hlt]
  | cons y l ih =>
      obtain ⟨fuel, rfl⟩ := Nat.exists_eq_add_one_of_ne_zero (Nat.ne_zero_of_lt hfuel)
      obtain rfl : a = y := Option.some.inj h.1
      rw [List.length_cons] at hfuel
      have hsum : n + (a :: l).length = n + 1 + l.length := by
        rw [List.length_cons]
        omega
      cases hnext : next a with
      | none =>
          have := h.2
          rw [hnext] at this
          cases l <;> exact absurd this.1 (by simp)
      | some b =>
          have hseg := h.2
          rw [hnext] at hseg
          simp only [lastNode, hnext]
          rw [hsum]
          by_cases hsucc : n + 1 < 2 ^ 31
          · rw [checkInt_of_lt (by omega) hsucc, Option.bind_some, ih hseg (by omega) hsucc (by omega)]
          · rw [checkInt_of_le (not_lt.mp hsucc), checkInt_of_le (by omega)]
            rfl

/-- The nodes are counted. -/
theorem countLoop_eq (h : Seg next p l none) (hn : 0 ≤ n) (hlt : n < 2 ^ 31) (hfuel : l.length < fuel) :
    countLoop next fuel p n = checkInt (n + l.length) := by
  induction l generalizing p n fuel with
  | nil =>
      obtain ⟨fuel, rfl⟩ := Nat.exists_eq_add_one_of_ne_zero (Nat.ne_of_gt hfuel)
      obtain rfl : p = none := h
      simp [countLoop, checkInt_of_lt hn hlt]
  | cons a l ih =>
      obtain ⟨fuel, rfl⟩ := Nat.exists_eq_add_one_of_ne_zero (Nat.ne_zero_of_lt hfuel)
      obtain ⟨rfl, h⟩ := h
      rw [List.length_cons] at hfuel
      have hsum : n + (a :: l).length = n + 1 + l.length := by
        rw [List.length_cons]
        omega
      rw [countLoop, hsum]
      by_cases hsucc : n + 1 < 2 ^ 31
      · rw [checkInt_of_lt (by omega) hsucc, Option.bind_some, ih h (by omega) hsucc (by omega)]
      · rw [checkInt_of_le (not_lt.mp hsucc), checkInt_of_le (by omega)]
        rfl

/-- Some nodes are passed. -/
theorem advance_eq (h : Seg next p l q) (hfuel : l.length < fuel) : advance next fuel l.length p = some q := by
  induction l generalizing p fuel with
  | nil =>
      obtain ⟨fuel, rfl⟩ := Nat.exists_eq_add_one_of_ne_zero (Nat.ne_of_gt hfuel)
      obtain rfl : p = q := h
      rfl
  | cons a l ih =>
      obtain ⟨fuel, rfl⟩ := Nat.exists_eq_add_one_of_ne_zero (Nat.ne_zero_of_lt hfuel)
      obtain ⟨rfl, h⟩ := h
      have hne : ((a :: l).length : ℤ) ≠ 0 := by
        rw [List.length_cons]
        omega
      have hpred : ((a :: l).length : ℤ) - 1 = l.length := by
        rw [List.length_cons]
        omega
      rw [advance, if_neg hne, Option.bind_some, hpred]
      exact ih h (Nat.lt_of_succ_lt_succ hfuel)

/-- **The way through the reversed links**: to the first shared node, and back to the first list's head. -/
theorem seg_reversed (h : Seg next q (m ++ z :: c) none) (hrev : Seg next' tail (l ++ z :: c).reverse none)
    (hm : ∀ a ∈ m, a ∉ l ++ z :: c) (hsame : ∀ a ∉ l ++ z :: c, next' a = next a) :
    Seg next' q (m ++ z :: l.reverse) none := by
  obtain ⟨r, hfront, rfl, -⟩ := seg_append.mp h
  refine seg_append.mpr ⟨some z, hfront.congr fun a ha => hsame a (hm a ha), rfl, ?_⟩
  rw [List.reverse_append, List.reverse_cons, List.append_assoc, List.singleton_append] at hrev
  obtain ⟨r, -, hback⟩ := seg_append.mp hrev
  exact hback.2

variable [DecidableEq A]

/-- **Reversing a list**: only its links are changed. -/
theorem reverseLoop_spec (h : Seg next p l none) (hnodup : l.Nodup) (hfuel : l.length < fuel) :
    ∃ next' tail, reverseLoop fuel next p q = some (next', tail) ∧ Seg next' tail l.reverse q ∧
      ∀ a ∉ l, next' a = next a := by
  induction l generalizing p q next fuel with
  | nil =>
      obtain ⟨fuel, rfl⟩ := Nat.exists_eq_add_one_of_ne_zero (Nat.ne_of_gt hfuel)
      obtain rfl : p = none := h
      exact ⟨next, q, rfl, rfl, fun _ _ => rfl⟩
  | cons a l ih =>
      obtain ⟨fuel, rfl⟩ := Nat.exists_eq_add_one_of_ne_zero (Nat.ne_zero_of_lt hfuel)
      obtain ⟨rfl, h⟩ := h
      obtain ⟨ha, hnodup⟩ := List.nodup_cons.mp hnodup
      obtain ⟨next', tail, hloop, hseg, hsame⟩ :=
        @ih (Function.update next a q) (next a) (some a) fuel (h.update ha q) hnodup (Nat.lt_of_succ_lt_succ hfuel)
      refine ⟨next', tail, hloop, ?_, fun b hb => ?_⟩
      · rw [List.reverse_cons]
        refine seg_append.mpr ⟨some a, hseg, rfl, ?_⟩
        rw [hsame a ha, Function.update_self]
        rfl
      · rw [List.mem_cons, not_or] at hb
        rw [hsame b hb.2, Function.update_of_ne hb.1]

/-- **Reversing twice** leaves every link as it was. -/
theorem reverseLoop_twice (h : Seg next p l none) (hfuel : l.length < fuel) : ∃ next' tail p',
    reverseLoop fuel next p none = some (next', tail) ∧ reverseLoop fuel next' tail none = some (next, p') ∧
      Seg next' tail l.reverse none ∧ ∀ a ∉ l, next' a = next a := by
  obtain ⟨next', tail, hloop, hseg, hsame⟩ := reverseLoop_spec (q := none) h h.nodup hfuel
  obtain ⟨next'', p', hloop', hseg', hsame'⟩ := reverseLoop_spec (q := none) hseg hseg.nodup (by simpa using hfuel)
  refine ⟨next', tail, p', hloop, ?_, hseg, hsame⟩
  have hback : next'' = next := by
    funext a
    rw [List.reverse_reverse] at hseg'
    by_cases ha : a ∈ l
    · exact hseg'.next_eq h a ha
    · rw [hsame' a (by simpa using ha), hsame a ha]
  rw [hloop', hback]

/-! ## The result -/

/-- Lists whose ends differ. -/
theorem getIntersectionNode_apart {x y : A} (hA : Seg next (some a) (l ++ [x]) none)
    (hB : Seg next (some b) (m ++ [y]) none) (hne : x ≠ y) (hl : l.length < fuel) (hm : m.length < fuel) :
    getIntersectionNode fuel next (some a) (some b) =
      (checkInt l.length).bind fun _ => (checkInt m.length).map fun _ => (none, next) := by
  have hlastA := lastNode_eq hA (le_refl 0) (by norm_num) hl
  have hlastB := lastNode_eq hB (le_refl 0) (by norm_num) hm
  rw [zero_add] at hlastA hlastB
  simp only [getIntersectionNode, hlastA, hlastB]
  cases checkInt l.length <;> cases checkInt m.length <;> simp [hne]

/-- Lists that share the nodes from `z` on. -/
theorem getIntersectionNode_shared (hA : Seg next (some a) (l ++ z :: c) none)
    (hB : Seg next (some b) (m ++ z :: c) none) (hm : ∀ x ∈ m, x ∉ l ++ z :: c)
    (hfuel : l.length + m.length + c.length + 1 < fuel) :
    getIntersectionNode fuel next (some a) (some b) =
      (checkInt (l.length + c.length)).bind fun _ => (checkInt (m.length + c.length)).bind fun _ =>
        (checkInt (m.length + 1 + l.length)).bind fun _ =>
          (checkInt (l.length + c.length + (m.length + c.length))).map fun _ => (some z, next) := by
  obtain ⟨c', w, hc⟩ : ∃ c' w, z :: c = c' ++ [w] :=
    ⟨_, _, (List.dropLast_append_getLast (List.cons_ne_nil z c)).symm⟩
  have hlen : c'.length = c.length := by
    have := congrArg List.length hc
    simpa using this.symm
  -- both walks end at the last node
  have hlast : ∀ {k a}, Seg next (some a) (k ++ z :: c) none → k.length + c.length < fuel →
      lastNode next fuel a 0 = (checkInt (k.length + c.length)).map fun n => (w, n) := by
    intro k a hk hfuel
    rw [hc, ← List.append_assoc] at hk
    rw [← hlen, ← List.length_append] at hfuel
    rw [lastNode_eq hk (le_refl 0) (by norm_num) hfuel, zero_add, List.length_append, hlen, Nat.cast_add]
  have hlastA := hlast hA (by omega)
  have hlastB := hlast hB (by omega)
  have hfuelA : (l ++ z :: c).length < fuel := by
    rw [List.length_append, List.length_cons]
    omega
  obtain ⟨next', tail, p', hreverse, hback, hrev, hsame⟩ := reverseLoop_twice hA hfuelA
  have hcount : countLoop next' fuel (some b) 0 = checkInt (m.length + 1 + l.length) := by
    have hlen : (m ++ z :: l.reverse).length = m.length + 1 + l.length := by
      simp
      omega
    rw [countLoop_eq (seg_reversed hB hrev hm hsame) (le_refl 0) (by norm_num) (by omega), hlen]
    simp
  have hadvance : advance next fuel m.length (some b) = some (some z) := by
    obtain ⟨r, hfront, rfl, -⟩ := seg_append.mp hB
    exact advance_eq hfront (by omega)
  have htwice : (m.length : ℤ) + c.length -
      Int.tdiv (l.length + c.length + (m.length + c.length) - (m.length + 1 + l.length - 1)) 2 = m.length := by
    have : (l.length + c.length + (m.length + c.length) - (m.length + 1 + l.length - 1) : ℤ) = 2 * c.length := by
      ring
    rw [this, Int.mul_tdiv_cancel_left _ two_ne_zero, add_sub_cancel_right]
  simp only [getIntersectionNode, hlastA, hlastB]
  rcases hca : checkInt (l.length + c.length) with _ | ca
  · simp
  rcases hcb : checkInt (m.length + c.length) with _ | cb
  · simp
  obtain rfl := eq_of_checkInt hca
  obtain rfl := eq_of_checkInt hcb
  rcases hcc : checkInt (m.length + 1 + l.length) with _ | cc
  · simp [hreverse, hcount, hcc]
  rcases hsum : checkInt (l.length + c.length + (m.length + c.length)) with _ | sum
  · simp [hreverse, hcount, hcc, hsum]
  obtain rfl := eq_of_checkInt hcc
  obtain rfl := eq_of_checkInt hsum
  simp [hreverse, hcount, hcc, hsum, hback, htwice, hadvance]

/-- All numbers that the call computes for these lists are `int`s: the links of each list, and, for lists that end
at the same node, the links of both, and the nodes that are not shared and one more. -/
def Fits (la lb : List A) : Prop :=
  la = [] ∨ lb = [] ∨ la.length ≤ 2 ^ 31 ∧ lb.length ≤ 2 ^ 31 ∧
    (la.getLast? = lb.getLast? → la.length + lb.length ≤ 2 ^ 31 + 1 ∧
      (la.filter (· ∉ lb)).length + (lb.filter (· ∉ la)).length + 1 < 2 ^ 31)

/-- What is not shared. -/
theorem filter_notMem (hl : ∀ a ∈ l, a ∉ m ++ c) : (l ++ c).filter (· ∉ m ++ c) = l := by
  rw [List.filter_append, List.filter_eq_self.mpr fun a ha => decide_eq_true (hl a ha), List.filter_eq_nil_iff.mpr]
  · exact List.append_nil l
  · intro a ha
    simp [ha]

/-- The first node that both lists have. -/
theorem find?_shared (hm : ∀ a ∈ m, a ∉ l ++ c) : (m ++ c).find? (· ∈ l ++ c) = c.head? := by
  rw [List.find?_append, List.find?_eq_none.mpr fun a ha => by simpa using hm a ha, Option.none_or]
  cases c with
  | nil => rfl
  | cons z c => simp

/-- **Every call**: what is to be returned, or a number that is no `int`. -/
theorem getIntersectionNode_cases (hA : Seg next p la none) (hB : Seg next q lb none)
    (hfuel : la.length + lb.length < fuel) :
    (Fits la lb ∧ getIntersectionNode fuel next p q = some (lb.find? (· ∈ la), next)) ∨
      (¬ Fits la lb ∧ getIntersectionNode fuel next p q = none) := by
  rcases la with _ | ⟨a, la⟩
  · obtain rfl : p = none := hA
    have hfind : lb.find? (· ∈ ([] : List A)) = none := List.find?_eq_none.mpr (by simp)
    exact .inl ⟨.inl rfl, by rw [getIntersectionNode, hfind]; simp⟩
  rcases lb with _ | ⟨b, lb⟩
  · obtain rfl : q = none := hB
    exact .inl ⟨.inr (.inl rfl), by simp [getIntersectionNode]⟩
  obtain rfl := hA.1
  obtain rfl := hB.1
  have hne := List.cons_ne_nil a la
  have hne' := List.cons_ne_nil b lb
  obtain ⟨l, m, c, hl, hm, hdl, hdm⟩ := hA.common hB
  generalize a :: la = la at *
  generalize b :: lb = lb at *
  subst hl hm
  rw [Fits, filter_notMem hdl, filter_notMem hdm, find?_shared hdm]
  simp only [hne, hne', false_or]
  rw [List.length_append, List.length_append] at hfuel ⊢
  rcases c with _ | ⟨z, c⟩
  · -- no node is shared
    simp only [List.append_nil] at *
    obtain ⟨l, x, rfl⟩ := List.eq_nil_or_concat' l |>.resolve_left hne
    obtain ⟨m, y, rfl⟩ := List.eq_nil_or_concat' m |>.resolve_left hne'
    have hxy : x ≠ y := by
      rintro rfl
      exact hdl x (by simp) (by simp)
    simp only [List.length_append, List.length_singleton, List.length_nil, add_zero] at hfuel ⊢
    rw [getIntersectionNode_apart hA hB hxy (by omega) (by omega)]
    have hends : (l ++ [x]).getLast? ≠ (m ++ [y]).getLast? := by simpa using hxy
    by_cases hl : (l.length : ℤ) < 2 ^ 31
    · rw [checkInt_of_lt (by omega) hl, Option.bind_some]
      by_cases hm : (m.length : ℤ) < 2 ^ 31
      · rw [checkInt_of_lt (by omega) hm]
        exact .inl ⟨⟨by omega, by omega, fun h => absurd h hends⟩, rfl⟩
      · rw [checkInt_of_le (not_lt.mp hm)]
        exact .inr ⟨fun h => by omega, rfl⟩
    · rw [checkInt_of_le (not_lt.mp hl)]
      exact .inr ⟨fun h => by omega, rfl⟩
  · have hends : (l ++ z :: c).getLast? = (m ++ z :: c).getLast? := by
      rw [List.getLast?_append_of_ne_nil l (List.cons_ne_nil z c),
        List.getLast?_append_of_ne_nil m (List.cons_ne_nil z c)]
    simp only [hends, true_imp_iff]
    rw [List.length_cons] at hfuel ⊢
    rw [getIntersectionNode_shared hA hB hdm (by omega), List.head?_cons]
    by_cases hl : (l.length + c.length : ℤ) < 2 ^ 31
    · rw [checkInt_of_lt (by omega) hl, Option.bind_some]
      by_cases hm : (m.length + c.length : ℤ) < 2 ^ 31
      · rw [checkInt_of_lt (by omega) hm, Option.bind_some]
        by_cases hcc : (m.length + 1 + l.length : ℤ) < 2 ^ 31
        · rw [checkInt_of_lt (by omega) hcc, Option.bind_some]
          by_cases hsum : (l.length + c.length + (m.length + c.length) : ℤ) < 2 ^ 31
          · rw [checkInt_of_lt (by omega) hsum]
            exact .inl ⟨by omega, rfl⟩
          · rw [checkInt_of_le (not_lt.mp hsum)]
            exact .inr ⟨by omega, rfl⟩
        · rw [checkInt_of_le (not_lt.mp hcc)]
          exact .inr ⟨by omega, rfl⟩
      · rw [checkInt_of_le (not_lt.mp hm)]
        exact .inr ⟨by omega, rfl⟩
    · rw [checkInt_of_le (not_lt.mp hl)]
      exact .inr ⟨by omega, rfl⟩

/-- **When the node is returned**, with every link as it was. -/
theorem getIntersectionNode_iff (next : A → Option A) (headA headB : Option A) (la lb : List A)
    (hA : Seg next headA la none) (hB : Seg next headB lb none) :
    (∃ N, ∀ fuel ≥ N, getIntersectionNode fuel next headA headB = some (lb.find? (· ∈ la), next)) ↔
      Fits la lb := by
  constructor
  · rintro ⟨N, hN⟩
    have hres := hN _ (le_max_left N (la.length + lb.length + 1))
    rcases getIntersectionNode_cases hA hB (le_max_right N (la.length + lb.length + 1)) with ⟨hfits, -⟩ | ⟨-, hnone⟩
    · exact hfits
    · exact absurd (hnone.symm.trans hres) (by simp)
  · intro hfits
    refine ⟨la.length + lb.length + 1, fun fuel hfuel => ?_⟩
    exact (getIntersectionNode_cases hA hB hfuel).resolve_right (fun h => h.1 hfits) |>.2

/-- Two lists that meet in the node `2`. -/
theorem getIntersectionNode_iff_two :
    (∃ N, ∀ fuel ≥ N, getIntersectionNode fuel (fun i => if i < 2 then some 2 else none) (some 0) (some 1) =
      some (some 2, fun i => if i < 2 then some 2 else none)) ∧ Fits [0, 2] [1, 2] := by
  have hfits : Fits [0, 2] [1, 2] := .inr (.inr ⟨by simp, by simp, fun _ => ⟨by simp, by decide⟩⟩)
  exact ⟨(getIntersectionNode_iff (fun i => if i < 2 then some 2 else none) (some 0) (some 1) [0, 2] [1, 2]
    (by simp [Seg]) (by simp [Seg])).mpr hfits, hfits⟩

/-! ## Lists that are too long -/

/-- The nodes up to `k`, one after the other. -/
def chain (k i : ℕ) : Option ℕ := if i < k then some (i + 1) else none

/-- A chain of numbers in memory. -/
theorem seg_chain (k n : ℕ) : Seg (chain (k + n)) (some k) (List.range' k (n + 1)) none := by
  induction n generalizing k with
  | zero => exact ⟨rfl, if_neg (lt_irrefl k)⟩
  | succ n ih =>
      rw [List.range'_succ]
      refine ⟨rfl, ?_⟩
      have hnext : chain (k + (n + 1)) k = some (k + 1) := if_pos (by omega)
      rw [hnext]
      have := ih (k + 1)
      rwa [add_assoc, add_comm 1] at this

/-- A list of `2 ^ 30 + 1` nodes, given twice: the links of both lists are too many for an `int`. -/
theorem getIntersectionNode_overflow : Seg (chain (2 ^ 30)) (some 0) (List.range' 0 (2 ^ 30 + 1)) none ∧
    ¬ ∃ N, ∀ fuel ≥ N, getIntersectionNode fuel (chain (2 ^ 30)) (some 0) (some 0) =
      some ((List.range' 0 (2 ^ 30 + 1)).find? (· ∈ List.range' 0 (2 ^ 30 + 1)), chain (2 ^ 30)) := by
  have hseg : Seg (chain (0 + 2 ^ 30)) (some 0) (List.range' 0 (2 ^ 30 + 1)) none := seg_chain 0 (2 ^ 30)
  rw [zero_add] at hseg
  have hlarge : 2 ^ 31 + 1 < 2 ^ 30 + 1 + (2 ^ 30 + 1) := by norm_num
  generalize hk : 2 ^ 30 = k at hseg hlarge ⊢
  refine ⟨hseg, ?_⟩
  rintro ⟨N, hN⟩
  have hres := hN _ (le_max_left N (k + 1 + (k + 1) + 1))
  have hfuel : (List.range' 0 (k + 1)).length + (List.range' 0 (k + 1)).length < max N (k + 1 + (k + 1) + 1) := by
    rw [List.length_range']
    omega
  rcases getIntersectionNode_cases hseg hseg hfuel with ⟨hfits, -⟩ | ⟨-, hnone⟩
  · rcases hfits with h | h | ⟨-, -, h⟩
    · exact absurd h (by simp)
    · exact absurd h (by simp)
    · have hsum := (h rfl).1
      rw [List.length_range'] at hsum
      omega
  · exact absurd (hnone.symm.trans hres) (by simp)

end Asenal.Acm
