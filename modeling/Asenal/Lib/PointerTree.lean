import Mathlib.Data.Tree.Basic
import Mathlib.Data.List.Nodup
import Mathlib.Logic.Function.Basic

/-!
# Binary trees in memory

A memory of nodes, each with a value and pointers to its children. A tree stands behind a pointer if the nodes
that are reached from it are those of the tree; no node is reached twice.

* `Stands.congr` — only the nodes of the tree matter.
* `InMemory.left`, `InMemory.right` — the subtrees stand in memory, too.
-/

namespace Asenal.Lib.PointerTree

variable {A V : Type*}

/-- A node; `none` is the null pointer. -/
structure Node (A V : Type*) where
  val : V
  left : Option A
  right : Option A

/-- The addresses of a tree, each node in front of its subtrees. -/
def preorder : BinaryTree A → List A
  | .nil => []
  | .node a l r => a :: (preorder l ++ preorder r)

/-- The addresses of a tree, each node behind its subtrees. -/
def postorder : BinaryTree A → List A
  | .nil => []
  | .node a l r => postorder l ++ postorder r ++ [a]

/-- The nodes behind a pointer. -/
def Stands (heap : A → Node A V) : BinaryTree A → Option A → Prop
  | .nil, p => p = none
  | .node a l r, p => p = some a ∧ Stands heap l (heap a).left ∧ Stands heap r (heap a).right

/-- A tree behind a pointer: no node is reached twice. -/
structure InMemory (heap : A → Node A V) (t : BinaryTree A) (p : Option A) : Prop where
  stands : Stands heap t p
  nodup : (preorder t).Nodup

variable {heap heap' : A → Node A V} {t l r : BinaryTree A} {p : Option A} {a : A}

/-- No tree has no nodes. -/
@[simp] theorem preorder_nil : preorder (.nil : BinaryTree A) = [] := rfl

/-- The root stands in front of both sides. -/
@[simp] theorem preorder_node (a : A) (l r : BinaryTree A) :
    preorder (.node a l r) = a :: (preorder l ++ preorder r) := rfl

/-- No tree has no nodes. -/
@[simp] theorem postorder_nil : postorder (.nil : BinaryTree A) = [] := rfl

/-- The root stands behind both sides. -/
@[simp] theorem postorder_node (a : A) (l r : BinaryTree A) :
    postorder (.node a l r) = postorder l ++ postorder r ++ [a] := rfl

/-- Only the nodes of the tree matter. -/
theorem Stands.congr (h : Stands heap t p) (hsame : ∀ a ∈ preorder t, heap' a = heap a) : Stands heap' t p := by
  induction t generalizing p with
  | nil => exact h
  | node a l r ihl ihr =>
      obtain ⟨hp, hl, hr⟩ := h
      simp only [preorder_node, List.forall_mem_cons, List.forall_mem_append] at hsame
      obtain ⟨ha, hsamel, hsamer⟩ := hsame
      rw [← ha] at hl hr
      exact ⟨hp, ihl hl hsamel, ihr hr hsamer⟩

/-- What a pointer points to is in the tree. -/
theorem Stands.mem (h : Stands heap t (some a)) : a ∈ preorder t := by
  cases t with
  | nil => exact absurd h (Option.some_ne_none a)
  | node b l r => exact List.mem_cons.mpr (Or.inl (Option.some.inj h.1))

/-- Behind the null pointer there is no node. -/
theorem Stands.eq_nil (h : Stands heap t p) (hp : p = none) : t = .nil := by
  cases t with
  | nil => rfl
  | node a l r => exact absurd (h.1.symm.trans hp) (Option.some_ne_none a)

/-- Memory outside a tree does not matter. -/
theorem InMemory.congr (h : InMemory heap t p) (hsame : ∀ a ∈ preorder t, heap' a = heap a) :
    InMemory heap' t p :=
  ⟨h.stands.congr hsame, h.nodup⟩

/-- The left side of a tree in memory. -/
theorem InMemory.left (h : InMemory heap (.node a l r) p) : InMemory heap l (heap a).left :=
  ⟨h.stands.2.1, (List.nodup_append.mp (List.nodup_cons.mp h.nodup).2).1⟩

/-- The right side of a tree in memory. -/
theorem InMemory.right (h : InMemory heap (.node a l r) p) : InMemory heap r (heap a).right :=
  ⟨h.stands.2.2, (List.nodup_append.mp (List.nodup_cons.mp h.nodup).2).2.1⟩

/-- A node is in none of its subtrees. -/
theorem InMemory.not_mem (h : InMemory heap (.node a l r) p) : a ∉ preorder l ∧ a ∉ preorder r := by
  simpa using (List.nodup_cons.mp h.nodup).1

/-- Both subtrees of a node have different nodes. -/
theorem InMemory.disjoint (h : InMemory heap (.node a l r) p) : List.Disjoint (preorder l) (preorder r) :=
  (List.nodup_append'.mp (List.nodup_cons.mp h.nodup).2).2.2

end Asenal.Lib.PointerTree
