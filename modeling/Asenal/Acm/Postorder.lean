import Mathlib.Data.Int.Notation
import Asenal.Lib.PointerTree

/-!
# The postorder traversal with a stack

`postorderTraversal` takes a node if it is a leaf, or if one of its children was the last node that was taken;
otherwise it goes on with the children.

* `postorderLoop_tree` — a tree on top of the stack is taken as the recursion takes it.
* `postorderTraversal_spec` — the values of a whole tree.
-/

namespace Asenal.Acm

open Asenal.Lib.PointerTree

/-- The loop with `fuel` rounds at most: the stack `s`, the last node that was taken, and the values. Source:
`postorderTraversal_itera.cc` `Solution::postorderTraversal`. -/
def postorderLoop (heap : ℕ → Node ℕ ℤ) : ℕ → List ℕ → ℕ → List ℤ → Option (List ℤ)
  | _, [], _, v => some v
  | 0, _ :: _, _, _ => none
  | fuel + 1, tmp :: s, root, v =>
      if ((heap tmp).left = some root ∨ (heap tmp).right = some root) ∨
          ((heap tmp).left = none ∧ (heap tmp).right = none) then
        postorderLoop heap fuel s tmp (v ++ [(heap tmp).val])
      else
        let s := tmp :: s
        let s := if let some a := (heap tmp).right then a :: s else s
        let s := if let some a := (heap tmp).left then a :: s else s
        postorderLoop heap fuel s root v

/-- Source: `postorderTraversal_itera.cc` `Solution::postorderTraversal`. -/
def postorderTraversal (fuel : ℕ) (heap : ℕ → Node ℕ ℤ) : Option ℕ → Option (List ℤ)
  | none => some []
  | some root => postorderLoop heap fuel [root] root []

/-- The values of a tree, by recursion: those of both subtrees, and that of the node. -/
def postorderValues (heap : ℕ → Node ℕ ℤ) (t : BinaryTree ℕ) : List ℤ := (postorder t).map fun a => (heap a).val

variable {heap : ℕ → Node ℕ ℤ} {t l r : BinaryTree ℕ} {a root fuel : ℕ} {s : List ℕ} {v : List ℤ}

/-- A node that is taken. -/
theorem postorderLoop_take (h : ((heap a).left = some root ∨ (heap a).right = some root) ∨
    ((heap a).left = none ∧ (heap a).right = none)) (fuel : ℕ) (s : List ℕ) (v : List ℤ) :
    postorderLoop heap (fuel + 1) (a :: s) root v = postorderLoop heap fuel s a (v ++ [(heap a).val]) := by
  rw [postorderLoop, if_pos h]

/-- A pointer that is pushed, unless it is null. -/
def pushed (p : Option ℕ) (s : List ℕ) : List ℕ := p.toList ++ s

/-- A node that stays on the stack. -/
theorem postorderLoop_push (hroot : (heap a).left ≠ some root ∧ (heap a).right ≠ some root)
    (hchild : (heap a).left ≠ none ∨ (heap a).right ≠ none) (fuel : ℕ) (s : List ℕ) (v : List ℤ) :
    postorderLoop heap (fuel + 1) (a :: s) root v =
      postorderLoop heap fuel (pushed (heap a).left (pushed (heap a).right (a :: s))) root v := by
  rw [postorderLoop, if_neg (by tauto)]
  cases (heap a).left <;> cases (heap a).right <;> rfl

/-- **A tree on top of the stack** is taken in postorder, unless the last node that was taken is below its root. -/
theorem postorderLoop_tree {p : Option ℕ} (h : InMemory heap t p) (hroot : root ∉ (preorder t).tail) :
    ∃ k ≤ 2 * t.numNodes, ∀ fuel s v, postorderLoop heap (fuel + k) (pushed p s) root v =
      postorderLoop heap fuel s (p.getD root) (v ++ postorderValues heap t) := by
  induction t generalizing p root with
  | nil =>
      refine ⟨0, Nat.zero_le _, fun fuel s v => ?_⟩
      rw [show p = none from h.stands, postorderValues, postorder_nil, List.map_nil, List.append_nil]
      rfl
  | node a l r ihl ihr =>
      obtain rfl : p = some a := h.stands.1
      rw [preorder_node, List.tail_cons, List.mem_append, not_or] at hroot
      obtain ⟨hrootl, hrootr⟩ := hroot
      have hl := h.left
      have hr := h.right
      have hvalues : postorderValues heap (.node a l r) =
          postorderValues heap l ++ postorderValues heap r ++ [(heap a).val] := by
        simp [postorderValues]
      by_cases hleaf : (heap a).left = none ∧ (heap a).right = none
      · have hnl : l = .nil := hl.stands.eq_nil hleaf.1
        have hnr : r = .nil := hr.stands.eq_nil hleaf.2
        refine ⟨1, by rw [BinaryTree.numNodes]; omega, fun fuel s v => ?_⟩
        rw [hvalues, hnl, hnr]
        exact postorderLoop_take (Or.inr hleaf) fuel s v
      · have hne : (heap a).left ≠ some root ∧ (heap a).right ≠ some root :=
          ⟨fun heq => hrootl (heq ▸ hl.stands).mem, fun heq => hrootr (heq ▸ hr.stands).mem⟩
        -- behind the left subtree its root was taken last, and that is not in the right one
        have hlast : (heap a).left.getD root ∉ (preorder r).tail := by
          intro hmem
          cases hleft : (heap a).left with
          | none =>
              rw [hleft] at hmem
              exact hrootr (List.mem_of_mem_tail hmem)
          | some b =>
              rw [hleft] at hmem
              exact h.disjoint (hleft ▸ hl.stands).mem (List.mem_of_mem_tail hmem)
        obtain ⟨kl, hkl, hloopl⟩ := ihl hl fun hmem => hrootl (List.mem_of_mem_tail hmem)
        obtain ⟨kr, hkr, hloopr⟩ := ihr hr hlast
        refine ⟨kl + kr + 2, by rw [BinaryTree.numNodes]; omega, fun fuel s v => ?_⟩
        have htake : ((heap a).left = some ((heap a).right.getD ((heap a).left.getD root)) ∨
            (heap a).right = some ((heap a).right.getD ((heap a).left.getD root))) ∨
            ((heap a).left = none ∧ (heap a).right = none) := by
          cases hright : (heap a).right with
          | some c => exact Or.inl (Or.inr rfl)
          | none =>
              cases hleft : (heap a).left with
              | some b => exact Or.inl (Or.inl rfl)
              | none => exact absurd ⟨hleft, hright⟩ hleaf
        have hfuel : fuel + (kl + kr + 2) = fuel + 1 + kr + kl + 1 := by omega
        have hchild : (heap a).left ≠ none ∨ (heap a).right ≠ none := not_and_or.mp hleaf
        calc postorderLoop heap (fuel + (kl + kr + 2)) (pushed (some a) s) root v
            = postorderLoop heap (fuel + 1 + kr + kl) (pushed (heap a).left (pushed (heap a).right (a :: s)))
                root v := by
              rw [hfuel]
              exact postorderLoop_push hne hchild _ s v
          _ = postorderLoop heap (fuel + 1) (a :: s) ((heap a).right.getD ((heap a).left.getD root))
                (v ++ postorderValues heap l ++ postorderValues heap r) := by
              rw [hloopl, hloopr]
          _ = postorderLoop heap fuel s a (v ++ postorderValues heap (.node a l r)) := by
              rw [postorderLoop_take htake, hvalues]
              simp only [List.append_assoc]

/-- **The traversal** ends, and gives the values of the tree in postorder. -/
theorem postorderTraversal_spec (heap : ℕ → Node ℕ ℤ) (t : BinaryTree ℕ) (root : Option ℕ)
    (h : InMemory heap t root) :
    ∀ fuel, 2 * t.numNodes ≤ fuel → postorderTraversal fuel heap root = some (postorderValues heap t) := by
  intro fuel hfuel
  cases root with
  | none =>
      obtain rfl := h.stands.eq_nil rfl
      rfl
  | some a =>
      have hroot : a ∉ (preorder t).tail := by
        cases t with
        | nil => exact List.not_mem_nil
        | node b l r =>
            obtain rfl := Option.some.inj h.stands.1
            exact (List.nodup_cons.mp h.nodup).1
      obtain ⟨k, hk, hloop⟩ := postorderLoop_tree h hroot
      have hrun := hloop (fuel - k) [] []
      rw [Nat.sub_add_cancel (Nat.le_trans hk hfuel)] at hrun
      rw [postorderTraversal]
      exact hrun.trans (by simp [postorderLoop])

/-- Nodes with one child. -/
theorem postorderTraversal_spec_three : postorderTraversal 6 (fun a => if a = 1 then ⟨10, none, some 2⟩
    else if a = 2 then ⟨20, some 3, none⟩ else ⟨30, none, none⟩) (some 1) = some [30, 20, 10] := by
  let heap : ℕ → Node ℕ ℤ := fun a =>
    if a = 1 then ⟨10, none, some 2⟩ else if a = 2 then ⟨20, some 3, none⟩ else ⟨30, none, none⟩
  have hstands : Stands heap (.node 1 .nil (.node 2 (.node 3 .nil .nil) .nil)) (some 1) :=
    ⟨rfl, rfl, rfl, ⟨rfl, rfl, rfl⟩, rfl⟩
  exact postorderTraversal_spec heap _ (some 1) ⟨hstands, by decide⟩ 6 (by decide)

end Asenal.Acm
