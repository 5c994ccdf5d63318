import Asenal.Lib.Checked
import Mathlib.Data.List.Nodup

/-!
# Trees from their traversals

`buildTravel` takes the root from the preorder and divides the inorder range at it. The right subtree is looked
for in the preorder behind as many values as the position of the root in the whole inorder list says, and not
behind as many as there are in the left subtree: the two are the same in ranges that begin in front.

* `buildTravel_behind` — a range that does not begin in front.
* `buildTravel_front` — a range that does.
* `buildTree_iff` — which trees are built.
-/

namespace Asenal.Acm

open Asenal.Lib.Checked

/-! ## The program -/

/-- A pointer to a node, or `NULL`. -/
inductive TreeNode where
  | null
  | node (val : Int32) (left right : TreeNode)
deriving DecidableEq

/-- An element of a vector by an `int`; `none` outside of it. -/
def elementAt (xs : List Int32) (k : ℤ) : Option Int32 := if 0 ≤ k ∧ k < 2 ^ 31 then xs[k.toNat]? else none

/-- The place of a value, or the place behind the last one that is looked at. -/
def findLoop (inorder : List Int32) (v : Int32) : ℕ → ℤ → Option ℤ
  | 0, i => some i
  | n + 1, i => (elementAt inorder i).bind fun w => if w = v then some i else findLoop inorder v n (i + 1)

/-- A sum that is kept as an `int`. -/
def wrapInt (x : ℤ) : ℤ := x.bmod (2 ^ 32)

/-- Source: `buildTree.cpp` `Solution::buildTravel`. -/
def buildTravel (preorder inorder : List Int32) : ℕ → ℤ → ℤ → ℤ → Option TreeNode
  | 0, _, _, _ => none
  | fuel + 1, l, r, preNum =>
      if l = r then (elementAt inorder l).map fun v => .node v .null .null
      else
        (elementAt preorder preNum).bind fun v => (findLoop inorder v (r + 1 - l).toNat l).bind fun i =>
          (if l ≥ i then some .null else buildTravel preorder inorder fuel l (i - 1) (wrapInt (preNum + 1))).bind
            fun left =>
              (if i ≥ r then some .null
                else buildTravel preorder inorder fuel (i + 1) r (wrapInt (preNum + 1 + i))).bind fun right =>
                  some (.node v left right)

/-- Source: `buildTree.cpp` `Solution::buildTree`. -/
def buildTree (fuel : ℕ) (preorder inorder : List Int32) : Option TreeNode :=
  if preorder.length = 0 ∨ inorder.length = 0 then some .null
  else if preorder.length ≠ inorder.length then some .null
  else buildTravel preorder inorder fuel 0 (intOf preorder.length - 1) 0

/-! ## Trees -/

namespace TreeNode

/-- The root in front of both sides. -/
def preorder : TreeNode → List Int32
  | null => []
  | node v l r => v :: (l.preorder ++ r.preorder)

/-- The root between both sides. -/
def inorder : TreeNode → List Int32
  | null => []
  | node v l r => l.inorder ++ v :: r.inorder

/-- The number of nodes. -/
def size : TreeNode → ℕ
  | null => 0
  | node _ l r => l.size + r.size + 1

/-- Each right subtree has one node at most. -/
def Slim : TreeNode → Prop
  | null => True
  | node _ l r => l.Slim ∧ r.size ≤ 1

/-- In the right subtrees of the nodes from the root to the left, each right subtree has one node at most. -/
def Good : TreeNode → Prop
  | null => True
  | node _ l r => l.Good ∧ r.Slim

variable (t : TreeNode)

/-- Each node once. -/
@[simp] theorem length_preorder : t.preorder.length = t.size := by
  induction t with
  | null => rfl
  | node v l r ihl ihr => simp [preorder, size, ihl, ihr]

/-- Each node once. -/
@[simp] theorem length_inorder : t.inorder.length = t.size := by
  induction t with
  | null => rfl
  | node v l r ihl ihr =>
      simp [inorder, size, ihl, ihr]
      omega

/-- Both traversals have the same values. -/
theorem perm_inorder : t.inorder.Perm t.preorder := by
  induction t with
  | null => exact .nil
  | node v l r ihl ihr => exact List.perm_middle.trans ((ihl.append ihr).cons v)

/-- Only the empty tree has no nodes. -/
theorem size_eq_zero : t.size = 0 ↔ t = null := by
  cases t with
  | null => simp [size]
  | node v l r => simp [size]

end TreeNode

/-! ## A range -/

open TreeNode

variable {preorder inorder xs ys : List Int32} {t left right : TreeNode} {v : Int32} {fuel n l p : ℕ} {i k r : ℤ}

/-- Below 2^31 an index is itself. -/
theorem elementAt_of_lt (hk : l < 2 ^ 31) : elementAt inorder l = inorder[l]? :=
  if_pos ⟨Int.natCast_nonneg l, by omega⟩

/-- A sum of two numbers below `2 ^ 31` is kept as it is, or gets negative. -/
theorem wrapInt_cases (h0 : 0 ≤ k) (hk : k < 2 ^ 32) :
    wrapInt k = k ∧ k < 2 ^ 31 ∨ wrapInt k = k - 2 ^ 32 ∧ 2 ^ 31 ≤ k := by
  rw [wrapInt, Int.bmod_def]
  split_ifs <;> omega

/-- In its range an `int` is itself. -/
theorem wrapInt_of_lt (h0 : 0 ≤ k) (hk : k < 2 ^ 31) : wrapInt k = k := by
  rcases wrapInt_cases h0 (by omega) with ⟨heq, -⟩ | ⟨-, hlarge⟩
  · exact heq
  · exact absurd hk (not_lt.mpr hlarge)

/-- The values in front of the one that is looked for are other ones. -/
theorem findLoop_drop (h : xs ++ v :: ys = inorder.drop l) (hnot : v ∉ xs) (hn : xs.length < n)
    (hlt : l + xs.length < 2 ^ 31) : findLoop inorder v n l = some ((l + xs.length : ℕ) : ℤ) := by
  induction xs generalizing l n with
  | nil =>
      obtain ⟨n, rfl⟩ := Nat.exists_eq_succ_of_ne_zero (Nat.ne_of_gt hn)
      have hget : inorder[l]? = some v := by rw [← List.head?_drop, ← h, List.nil_append, List.head?_cons]
      rw [findLoop, elementAt_of_lt (by simpa using hlt), hget, Option.bind_some, if_pos rfl]
      rfl
  | cons w xs ih =>
      obtain ⟨n, rfl⟩ := Nat.exists_eq_succ_of_ne_zero (Nat.ne_of_gt (Nat.zero_lt_of_lt hn))
      obtain ⟨hne, hnot⟩ := not_or.mp (mt List.mem_cons.mpr hnot)
      have hget : inorder[l]? = some w := by rw [← List.head?_drop, ← h, List.cons_append, List.head?_cons]
      have htail : xs ++ v :: ys = inorder.drop (l + 1) := by
        rw [← List.tail_drop, ← h, List.cons_append, List.tail_cons]
      rw [List.length_cons] at hn hlt
      rw [findLoop, elementAt_of_lt (by omega), hget, Option.bind_some, if_neg (Ne.symm hne)]
      have hih := ih htail hnot (Nat.lt_of_succ_lt_succ hn) (by omega)
      rw [List.length_cons, Nat.add_comm xs.length 1, ← Nat.add_assoc, ← hih]
      rfl

/-- The traversals of a tree stand at places of the lists. -/
structure Stands (preorder inorder : List Int32) (t : TreeNode) (l p : ℕ) : Prop where
  inorder : t.inorder <+: inorder.drop l
  preorder : t.preorder <+: preorder.drop p

/-- Where the left side stands. -/
theorem Stands.toLeft (h : Stands preorder inorder (.node v left right) l p) :
    Stands preorder inorder left l (p + 1) := by
  refine ⟨(List.prefix_append _ _).trans h.inorder, ?_⟩
  obtain ⟨rest, hrest⟩ := h.preorder
  rw [← List.tail_drop, ← hrest]
  simp [TreeNode.preorder]

/-- Where the right side stands. -/
theorem Stands.toRight (h : Stands preorder inorder (.node v left right) l p) :
    Stands preorder inorder right (l + left.size + 1) (p + 1 + left.size) := by
  obtain ⟨rest, hrest⟩ := h.preorder
  obtain ⟨rest', hrest'⟩ := h.inorder
  have hin : inorder.drop l = (left.inorder ++ [v]) ++ (right.inorder ++ rest') := by
    rw [← hrest']
    simp [TreeNode.inorder]
  have hpre : preorder.drop p = (v :: left.preorder) ++ (right.preorder ++ rest) := by
    rw [← hrest]
    simp [TreeNode.preorder]
  constructor
  · rw [Nat.add_assoc, ← List.drop_drop, hin, List.drop_left' (by simp)]
    exact List.prefix_append _ _
  · rw [Nat.add_assoc, Nat.add_comm 1, ← List.drop_drop, hpre, List.drop_left' (by simp)]
    exact List.prefix_append _ _

/-- The root is the first one in the preorder. -/
theorem Stands.root (h : Stands preorder inorder (.node v left right) l p) : preorder[p]? = some v := by
  obtain ⟨rest, hrest⟩ := h.preorder
  rw [← List.head?_drop, ← hrest]
  rfl

/-- The root is found in the range. -/
theorem Stands.find (h : Stands preorder inorder (.node v left right) l p) (hnodup : inorder.Nodup)
    (hin : inorder.length < 2 ^ 31) (hn : left.size < n) :
    findLoop inorder v n l = some ((l + left.size : ℕ) : ℤ) := by
  obtain ⟨rest, hrest⟩ := h.inorder
  have hdrop : left.inorder ++ v :: (right.inorder ++ rest) = inorder.drop l := by
    rw [← hrest]
    simp [TreeNode.inorder]
  have hnot : v ∉ left.inorder := by
    have hsub := hnodup.sublist (List.drop_sublist l inorder)
    rw [← hdrop] at hsub
    exact fun hmem => (List.nodup_append.mp hsub).2.2 v hmem v List.mem_cons_self rfl
  have hlen := congrArg List.length hdrop
  rw [List.length_append, List.length_cons, List.length_drop, length_inorder] at hlen
  have hfind := findLoop_drop hdrop hnot (by rwa [length_inorder]) (by rw [length_inorder]; omega)
  rwa [length_inorder] at hfind

/-- A subtree that is `NULL` where nothing is left. -/
theorem unless_null {q : Prop} [Decidable q] {x : Option TreeNode} (hq : q ↔ t.size = 0) :
    (if q then some .null else x) = some t ↔ (t ≠ .null → x = some t) := by
  rw [size_eq_zero] at hq
  by_cases hnull : t = .null
  · simp [if_pos (hq.mpr hnull), hnull]
  · simp [if_neg (mt hq.mp hnull), hnull]

/-- A node is made of both sides. -/
theorem bind_node_eq_some {x y : Option TreeNode} :
    (x.bind fun left' => y.bind fun right' => some (TreeNode.node v left' right')) = some (.node v left right) ↔
      x = some left ∧ y = some right := by
  cases x <;> cases y <;> simp

/-- A leaf. -/
theorem buildTravel_leaf (h : Stands preorder inorder (.node v .null .null) l p) (hin : inorder.length < 2 ^ 31)
    (k : ℤ) : buildTravel preorder inorder (fuel + 1) l l k = some (.node v .null .null) := by
  have hroot := h.inorder
  have hget : inorder[l]? = some v := by
    obtain ⟨rest, hrest⟩ := h.inorder
    rw [← List.head?_drop, ← hrest]
    rfl
  have hlt : l < inorder.length := (List.getElem?_eq_some_iff.mp hget).1
  rw [buildTravel, if_pos rfl, elementAt_of_lt (by omega), hget]
  rfl

/-- **A node**: the root is found, and both subtrees are built. -/
theorem buildTravel_node (h : Stands preorder inorder (.node v left right) l p) (hnodup : inorder.Nodup)
    (hpre : preorder.length < 2 ^ 31) (hin : inorder.length < 2 ^ 31) :
    buildTravel preorder inorder (fuel + 1) l (l + (left.size + right.size)) p = some (.node v left right) ↔
      (left ≠ .null → buildTravel preorder inorder fuel l (l + left.size - 1) (p + 1) = some left) ∧
      (right ≠ .null → buildTravel preorder inorder fuel (l + left.size + 1) (l + (left.size + right.size))
        (wrapInt (p + 1 + (l + left.size))) = some right) := by
  have hlt : p < preorder.length := (List.getElem?_eq_some_iff.mp h.root).1
  by_cases hleaf : left.size + right.size = 0
  · obtain rfl := (size_eq_zero left).mp (by omega)
    obtain rfl := (size_eq_zero right).mp (by omega)
    simpa [size] using buildTravel_leaf h hin p
  rw [buildTravel, if_neg (by omega), elementAt_of_lt (by omega), h.root, Option.bind_some,
    h.find hnodup hin (by omega), Option.bind_some, bind_node_eq_some, unless_null (by omega),
    unless_null (by omega), wrapInt_of_lt (by omega) (by omega)]
  push_cast
  exact Iff.rfl

/-- The root is read where the range has more than one value. -/
theorem root_of_buildTravel (hl : i ≠ r) (h : buildTravel preorder inorder fuel i r k = some (.node v left right)) :
    elementAt preorder k = some v := by
  cases fuel with
  | zero => cases h
  | succ fuel =>
      rw [buildTravel, if_neg hl, Option.bind_eq_some_iff] at h
      obtain ⟨w, hread, hfind⟩ := h
      obtain ⟨j, -, hbuilt⟩ := Option.bind_eq_some_iff.mp hfind
      obtain ⟨left', -, hright⟩ := Option.bind_eq_some_iff.mp hbuilt
      obtain ⟨right', -, hnode⟩ := Option.bind_eq_some_iff.mp hright
      cases hnode
      exact hread

/-- What is found is an element of the vector. -/
theorem getElem?_of_elementAt (h : elementAt inorder k = some v) : 0 ≤ k ∧ inorder[k.toNat]? = some v := by
  unfold elementAt at h
  split_ifs at h with hk
  exact ⟨hk.1, h⟩

/-- A tree that is looked for at another place of the preorder is not built, unless it is a leaf. -/
theorem buildTravel_elsewhere (hpre : preorder.Nodup) (hin : inorder.length < 2 ^ 31)
    (h : Stands preorder inorder t l p) (hne : t ≠ .null) (fuel : ℕ) {j : ℤ} (hj : j ≠ p) :
    buildTravel preorder inorder (fuel + 1) l (l + t.size - 1) j = some t ↔ t.size ≤ 1 := by
  cases t with
  | null => exact absurd rfl hne
  | node v left right =>
      have hsize : (node v left right).size = left.size + right.size + 1 := rfl
      by_cases hleaf : left.size + right.size = 0
      · obtain rfl := (size_eq_zero left).mp (by omega)
        obtain rfl := (size_eq_zero right).mp (by omega)
        have hrange : (l : ℤ) + (node v .null .null).size - 1 = l := by
          simp [size]
        rw [hrange]
        exact iff_of_true (buildTravel_leaf h hin j) (Nat.le_refl 1)
      · refine iff_of_false (fun hbuilt => ?_) (by omega)
        obtain ⟨hpos, hread⟩ := getElem?_of_elementAt (root_of_buildTravel (by omega) hbuilt)
        have hlt : p < preorder.length := (List.getElem?_eq_some_iff.mp h.root).1
        have hplace : p = j.toNat := (List.getElem?_inj hlt hpre).mp (h.root.trans hread.symm)
        omega

/-- **A range that does not begin in front**: a right subtree is looked for too far behind, which does not matter
where it is a leaf. -/
theorem buildTravel_behind (hpre : preorder.Nodup) (hnodup : inorder.Nodup) (hlen : preorder.length < 2 ^ 31)
    (hin : inorder.length < 2 ^ 31) (h : Stands preorder inorder t l p) (hl : 0 < l) (hne : t ≠ .null)
    (hfuel : t.size ≤ fuel) : buildTravel preorder inorder fuel l (l + t.size - 1) p = some t ↔ t.Slim := by
  induction t generalizing l p fuel with
  | null => exact absurd rfl hne
  | node v left right ihleft _ =>
      have hsize : (node v left right).size = left.size + right.size + 1 := rfl
      obtain ⟨fuel, rfl⟩ := Nat.exists_eq_succ_of_ne_zero (show fuel ≠ 0 by omega)
      have hrange : (l : ℤ) + (node v left right).size - 1 = l + (left.size + right.size) := by omega
      rw [hrange, buildTravel_node h hnodup hlen hin, Slim]
      have hleft : left.size ≤ fuel := by omega
      apply and_congr
      · by_cases hnull : left = .null
        · simp [hnull, Slim]
        · simpa [hnull] using ihleft h.toLeft hl hnull hleft
      · by_cases hnull : right = .null
        · simp [hnull, size]
        · have hpos := Nat.pos_of_ne_zero (mt (size_eq_zero right).mp hnull)
          obtain ⟨fuel, rfl⟩ := Nat.exists_eq_succ_of_ne_zero (show fuel ≠ 0 by omega)
          have hright := h.toRight.inorder.length_le
          have hroot := h.toRight.preorder.length_le
          rw [length_inorder, List.length_drop] at hright
          rw [length_preorder, List.length_drop] at hroot
          have hj : wrapInt (p + 1 + (l + left.size)) ≠ (p + 1 + left.size : ℕ) := by
            rcases wrapInt_cases (k := p + 1 + (l + left.size)) (by omega) (by omega) with ⟨heq, -⟩ | ⟨heq, -⟩
            all_goals omega
          have helse := buildTravel_elsewhere hpre hin h.toRight hnull fuel hj
          have hlast : (l : ℤ) + left.size + 1 + right.size - 1 = l + (left.size + right.size) := by omega
          push_cast at helse
          rw [hlast] at helse
          simpa [hnull] using helse

/-- **A range that begins in front**. -/
theorem buildTravel_front (hpre : preorder.Nodup) (hnodup : inorder.Nodup) (hlen : preorder.length < 2 ^ 31)
    (hin : inorder.length < 2 ^ 31) (h : Stands preorder inorder t 0 p) (hne : t ≠ .null)
    (hfuel : t.size ≤ fuel) : buildTravel preorder inorder fuel 0 (t.size - 1) p = some t ↔ t.Good := by
  induction t generalizing p fuel with
  | null => exact absurd rfl hne
  | node v left right ihleft _ =>
      have hsize : (node v left right).size = left.size + right.size + 1 := rfl
      obtain ⟨fuel, rfl⟩ := Nat.exists_eq_succ_of_ne_zero (show fuel ≠ 0 by omega)
      have hrange : ((node v left right).size : ℤ) - 1 = left.size + right.size := by omega
      have hnode : buildTravel preorder inorder (fuel + 1) (0 : ℕ) ((0 : ℕ) + (left.size + right.size)) p =
        some (node v left right) ↔ _ := buildTravel_node h hnodup hlen hin
      simp only [Nat.cast_zero, zero_add] at hnode
      rw [hrange, hnode, Good]
      have hleft : left.size ≤ fuel := by omega
      have hright : right.size ≤ fuel := by omega
      apply and_congr
      · by_cases hnull : left = .null
        · simp [hnull, Good]
        · simpa [hnull] using ihleft h.toLeft hnull hleft
      · by_cases hnull : right = .null
        · simp [hnull, Slim]
        · have hbehind := buildTravel_behind hpre hnodup hlen hin h.toRight (Nat.succ_pos _) hnull hright
          have hpos := Nat.pos_of_ne_zero (mt (size_eq_zero right).mp hnull)
          have hroot := h.toRight.preorder.length_le
          rw [length_preorder, List.length_drop] at hroot
          have hkeep : wrapInt (p + 1 + left.size) = p + 1 + left.size := wrapInt_of_lt (by omega) (by omega)
          have hlast : (left.size : ℤ) + 1 + right.size - 1 = left.size + right.size := by omega
          simpa [hnull, hlast, hkeep] using hbehind

/-! ## Sizes that are no `int` -/

/-- No element from 2^31 on is found. -/
theorem mem_take_of_elementAt (h : elementAt inorder k = some v) : v ∈ inorder.take (2 ^ 31) := by
  unfold elementAt at h
  split_ifs at h with hk
  have hlt : k.toNat < 2 ^ 31 := by omega
  rw [← List.getElem?_take_of_lt hlt] at h
  exact List.mem_of_getElem? h

/-- What is built has values that an `int` reaches. -/
theorem values_of_buildTravel (h : buildTravel preorder inorder fuel i r k = some t) :
    t.preorder ⊆ preorder.take (2 ^ 31) ++ inorder.take (2 ^ 31) := by
  induction fuel generalizing i r k t with
  | zero => cases h
  | succ fuel ih =>
      rw [buildTravel] at h
      split_ifs at h with hlr
      · obtain ⟨v, hread, rfl⟩ := Option.map_eq_some_iff.mp h
        intro w hw
        rw [List.mem_singleton.mp hw]
        exact List.mem_append_right _ (mem_take_of_elementAt hread)
      · obtain ⟨v, hread, hfind⟩ := Option.bind_eq_some_iff.mp h
        obtain ⟨j, -, hbuilt⟩ := Option.bind_eq_some_iff.mp hfind
        obtain ⟨left, hleft, hbuilt⟩ := Option.bind_eq_some_iff.mp hbuilt
        obtain ⟨right, hright, hnode⟩ := Option.bind_eq_some_iff.mp hbuilt
        cases hnode
        have hsub : ∀ {q : Prop} [Decidable q] {s i r k}, (if q then some .null
            else buildTravel preorder inorder fuel i r k) = some s →
              s.preorder ⊆ preorder.take (2 ^ 31) ++ inorder.take (2 ^ 31) := by
          intro q _ s i r k hs
          split_ifs at hs
          · cases hs
            exact List.nil_subset _
          · exact ih hs
        intro w hw
        rcases List.mem_cons.mp hw with rfl | hw
        · exact List.mem_append_left _ (mem_take_of_elementAt hread)
        · exact (List.mem_append.mp hw).elim (fun hw => hsub hleft hw) (fun hw => hsub hright hw)

/-- Too many nodes are not built. -/
theorem buildTravel_long (hnodup : t.preorder.Nodup) (hlong : 2 ^ 31 ≤ t.size) :
    buildTravel t.preorder t.inorder fuel 0 (intOf t.size - 1) 0 ≠ some t := by
  intro h
  by_cases hpos : 0 < intOf t.size
  · have hlen := (hnodup.subperm (values_of_buildTravel h)).length_le
    have hmany := lt_of_intOf_pos hpos hlong
    simp only [length_preorder, length_inorder, List.length_append, List.length_take] at hlen
    omega
  · cases fuel with
    | zero => cases h
    | succ fuel =>
        have hrounds : (intOf t.size - 1 + 1 - 0).toNat = 0 := by omega
        rw [buildTravel, if_neg (by omega), hrounds] at h
        obtain ⟨v, -, hnode⟩ := Option.bind_eq_some_iff.mp h
        simp only [findLoop, Option.bind_some, ge_iff_le, Int.le_refl, if_true] at hnode
        rw [if_pos (by omega), Option.bind_some] at hnode
        cases hnode
        simp [size] at hlong

/-! ## The whole lists -/

/-- **Which trees are built**: those with right subtrees that are small enough. -/
theorem buildTree_iff (t : TreeNode) (hnodup : t.preorder.Nodup) (fuel : ℕ) (hfuel : t.size < fuel) :
    buildTree fuel t.preorder t.inorder = some t ↔ t.size < 2 ^ 31 ∧ t.Good := by
  by_cases hnull : t = .null
  · subst hnull
    exact iff_of_true rfl ⟨by decide, trivial⟩
  have hpos := Nat.pos_of_ne_zero (mt (size_eq_zero t).mp hnull)
  rw [buildTree, if_neg (by simp; omega), if_neg (by simp), length_preorder]
  by_cases hlong : 2 ^ 31 ≤ t.size
  · exact iff_of_false (buildTravel_long hnodup hlong) fun h => absurd h.1 (not_lt.mpr hlong)
  · have hlt := not_le.mp hlong
    have hstands : Stands t.preorder t.inorder t 0 0 := ⟨List.prefix_refl _, List.prefix_refl _⟩
    have hfront := buildTravel_front hnodup (t.perm_inorder.nodup_iff.mpr hnodup) (by simpa using hlt)
      (by simpa using hlt) hstands hnull hfuel.le
    rw [intOf_of_lt hlt, and_iff_right hlt]
    exact hfront

/-- A tree with two leaves. -/
theorem buildTree_iff_leaves :
    buildTree 4 [1, 2, 3] [2, 1, 3] = some (.node 1 (.node 2 .null .null) (.node 3 .null .null)) := by
  refine (buildTree_iff (.node 1 (.node 2 .null .null) (.node 3 .null .null)) ?_ 4 ?_).mpr ⟨?_, ?_⟩
  · decide
  · decide
  · decide
  · simp [Good, Slim, size]

/-- Four nodes that go to the right: the last two are exchanged. -/
theorem buildTree_chain : ¬ ∀ t : TreeNode, t.preorder.Nodup → ∀ fuel, t.size < fuel →
    buildTree fuel t.preorder t.inorder = some t := by
  intro h
  have hchain := h (.node 1 .null (.node 2 .null (.node 3 .null (.node 4 .null .null)))) (by decide) 5 (by decide)
  have hbuilt : buildTree 5 [1, 2, 3, 4] [1, 2, 3, 4] =
      some (.node 1 .null (.node 2 .null (.node 4 (.node 3 .null .null) .null))) := by
    decide +kernel
  exact absurd (hbuilt.symm.trans hchain) (by decide)

end Asenal.Acm
