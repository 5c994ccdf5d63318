import Mathlib.Data.Int.Notation
import Asenal.Lib.Linked
import Asenal.Lib.PointerTree

/-!
# Flattening a tree in place

`pre_travel` makes a chain of a tree and returns its last node. The chain of the left subtree is put between
the node and its right subtree, whose chain comes behind.

* `Flat` — a chain along the right children.
* `preTravel_spec` — the chain of a tree has its nodes in preorder.
* `flatten_spec` — the same for the whole call, which may be for no tree at all.
-/

namespace Asenal.Acm

open Asenal.Lib.Linked Asenal.Lib.PointerTree

/-! ## The program -/

/-- `a->right = p` -/
def setRight (heap : ℕ → Node ℕ ℤ) (a : ℕ) (p : Option ℕ) : ℕ → Node ℕ ℤ :=
  Function.update heap a { heap a with right := p }

/-- `a->left = p` -/
def setLeft (heap : ℕ → Node ℕ ℤ) (a : ℕ) (p : Option ℕ) : ℕ → Node ℕ ℤ :=
  Function.update heap a { heap a with left := p }

/-- The left subtree, which ends with `l`, goes between `p` and its right subtree. -/
def relink (heap : ℕ → Node ℕ ℤ) (p l : ℕ) : ℕ → Node ℕ ℤ :=
  let heap := setRight heap l (heap p).right
  let heap := setRight heap p (heap p).left
  setLeft heap p none

/-- The case of a left child, with the call `travel`: the nodes, and the pointer `l`. -/
def travelLeft (travel : ℕ → Option ((ℕ → Node ℕ ℤ) × Option ℕ)) (heap : ℕ → Node ℕ ℤ) (p : ℕ) :
    Option ((ℕ → Node ℕ ℤ) × Option ℕ) :=
  match (heap p).left with
  | none => some (heap, none)
  | some a => (travel a).bind fun (heap, l) => l.map fun l => (relink heap p l, some l)

/-- The nodes behind the call, and the pointer that is returned; the calls are `fuel` deep at most. Source:
`flatten2.cpp` `Solution::pre_travel`. -/
def preTravel : ℕ → (ℕ → Node ℕ ℤ) → ℕ → Option ((ℕ → Node ℕ ℤ) × Option ℕ)
  | 0, _, _ => none
  | fuel + 1, heap, p =>
      if (heap p).left = none ∧ (heap p).right = none then some (heap, some p)
      else
        let pr := (heap p).right
        (travelLeft (preTravel fuel heap) heap p).bind fun (heap, l) =>
          match pr with
          | none => some (heap, l)
          | some b => preTravel fuel heap b

/-- Source: `flatten2.cpp` `Solution::flatten`. -/
def flatten (fuel : ℕ) (heap : ℕ → Node ℕ ℤ) : Option ℕ → Option (ℕ → Node ℕ ℤ)
  | none => some heap
  | some root => (preTravel fuel heap root).map Prod.fst

/-! ## Chains -/

/-- From the pointer `p` on, the right children are the nodes `as` one after the other, without left children,
up to the pointer `q`. -/
structure Flat (heap : ℕ → Node ℕ ℤ) (p : Option ℕ) (as : List ℕ) (q : Option ℕ) : Prop where
  seg : Seg (fun a => (heap a).right) p as q
  left : ∀ a ∈ as, (heap a).left = none

/-- The nodes of a memory with other pointers. -/
structure Rewired (heap heap' : ℕ → Node ℕ ℤ) (as : List ℕ) : Prop where
  val : ∀ a, (heap' a).val = (heap a).val
  frame : ∀ a, a ∉ as → heap' a = heap a

variable {heap heap' heap'' : ℕ → Node ℕ ℤ} {t l r : BinaryTree ℕ} {as bs : List ℕ} {a b z : ℕ} {p q q' : Option ℕ}

/-- Memory outside a chain does not matter. -/
theorem Flat.congr (h : Flat heap p as q) (hsame : ∀ a ∈ as, heap' a = heap a) : Flat heap' p as q :=
  ⟨h.seg.congr fun a ha => by rw [hsame a ha], fun a ha => by rw [hsame a ha, h.left a ha]⟩

/-- A chain behind another one. -/
theorem Flat.append (h : Flat heap p as q) (h' : Flat heap q bs q') : Flat heap p (as ++ bs) q' :=
  ⟨seg_append.mpr ⟨q, h.seg, h'.seg⟩, List.forall_mem_append.mpr ⟨h.left, h'.left⟩⟩

/-- What is rewired in two steps. -/
theorem Rewired.trans (h : Rewired heap heap' as) (h' : Rewired heap' heap'' bs) :
    Rewired heap heap'' (as ++ bs) := by
  refine ⟨fun a => (h'.val a).trans (h.val a), fun a ha => ?_⟩
  rw [List.mem_append, not_or] at ha
  rw [h'.frame a ha.2, h.frame a ha.1]

/-- The node itself. -/
theorem relink_self (h : a ≠ z) : relink heap a z a = ⟨(heap a).val, none, (heap a).left⟩ := by
  simp [relink, setLeft, setRight, h]

/-- The last node of the left side. -/
theorem relink_last (h : a ≠ z) : relink heap a z z = ⟨(heap z).val, (heap z).left, (heap a).right⟩ := by
  simp [relink, setLeft, setRight, h.symm]

/-- The other nodes. -/
theorem relink_of_ne (ha : b ≠ a) (hz : b ≠ z) : relink heap a z b = heap b := by
  simp [relink, setLeft, setRight, ha, hz]

/-- **The splice**: a node, the chain of its left subtree, and the pointer to its right subtree. -/
theorem Flat.relink (h : Flat heap (heap a).left (as ++ [z]) none) (hnodup : (as ++ [z]).Nodup)
    (ha : a ∉ as ++ [z]) : Flat (relink heap a z) (some a) (a :: (as ++ [z])) (heap a).right ∧
      Rewired heap (relink heap a z) (a :: (as ++ [z])) := by
  have hmem : z ∈ as ++ [z] := List.mem_append_right as (List.mem_singleton_self z)
  have haz : a ≠ z := ne_of_mem_of_not_mem hmem ha |>.symm
  have hz : z ∉ as := fun hmem => (List.nodup_append'.mp hnodup).2.2 hmem (List.mem_singleton_self z)
  have hrest : ∀ b ∈ as, Acm.relink heap a z b = heap b := fun b hb =>
    relink_of_ne (fun heq => ha (heq ▸ List.mem_append_left [z] hb)) fun heq => hz (heq ▸ hb)
  have hlast : Acm.relink heap a z z = _ := relink_last haz
  obtain ⟨q, hseg, hq, -⟩ := seg_append.mp h.seg
  constructor
  · refine ⟨⟨rfl, ?_⟩, ?_⟩
    · dsimp only
      rw [relink_self haz]
      refine seg_append.mpr ⟨q, hseg.congr fun b hb => by rw [hrest b hb], hq, ?_⟩
      show (Acm.relink heap a z z).right = (heap a).right
      rw [hlast]
    · intro b hb
      rcases List.mem_cons.mp hb with rfl | hb
      · exact congrArg Node.left (relink_self haz)
      · rcases List.mem_append.mp hb with hb' | hb'
        · rw [hrest b hb']
          exact h.left b hb
        · rw [List.mem_singleton.mp hb', hlast]
          exact h.left z hmem
  · constructor
    · intro b
      by_cases hba : b = a
      · rw [hba, relink_self haz]
      · by_cases hbz : b = z
        · rw [hbz, hlast]
        · rw [relink_of_ne hba hbz]
    · intro b hb
      simp only [List.mem_cons, List.mem_append, List.not_mem_nil, or_false, not_or] at hb
      exact relink_of_ne hb.1 hb.2.2

/-- What is true of the call for a tree: its chain has the nodes in preorder, and the last one is returned. -/
def Flattens (heap : ℕ → Node ℕ ℤ) (t : BinaryTree ℕ) (a : ℕ)
    (result : Option ((ℕ → Node ℕ ℤ) × Option ℕ)) : Prop :=
  ∃ heap' as z, result = some (heap', some z) ∧ preorder t = as ++ [z] ∧
    Flat heap' (some a) (preorder t) none ∧ Rewired heap heap' (preorder t)

/-- **The left subtree**, if there is one, goes behind the node. -/
theorem travelLeft_spec (travel : ℕ → Option ((ℕ → Node ℕ ℤ) × Option ℕ)) (h : InMemory heap (.node a l r) p)
    (htravel : ∀ c, (heap a).left = some c → Flattens heap l c (travel c)) :
    ∃ heap' ptr, travelLeft travel heap a = some (heap', ptr) ∧
      Flat heap' (some a) (a :: preorder l) (heap a).right ∧ Rewired heap heap' (a :: preorder l) ∧
      ((heap a).left = none ∨ ∃ as z, preorder l = as ++ [z] ∧ ptr = some z) := by
  unfold travelLeft
  cases hleft : (heap a).left with
  | none =>
      rw [h.left.stands.eq_nil hleft]
      refine ⟨heap, none, rfl, ⟨⟨rfl, rfl⟩, ?_⟩, ⟨fun b => rfl, fun b _ => rfl⟩, Or.inl rfl⟩
      exact fun b hb => List.mem_singleton.mp hb ▸ hleft
  | some c =>
      obtain ⟨heap₁, as, z, hrun, hpre, hflat, hrewired⟩ := htravel c hleft
      have ha : heap₁ a = heap a := hrewired.frame a h.not_mem.1
      have hnodup := h.left.nodup
      have hmem := h.not_mem.1
      rw [hpre] at hflat hnodup hmem
      have hflat₁ : Flat heap₁ (heap₁ a).left (as ++ [z]) none := by rwa [ha, hleft]
      obtain ⟨hflat', hrewired'⟩ := hflat₁.relink hnodup hmem
      rw [← hpre, ha] at hflat'
      rw [← hpre] at hrewired'
      refine ⟨relink heap₁ a z, some z, ?_, hflat', ?_, Or.inr ⟨as, z, hpre, rfl⟩⟩
      · simp only [hrun, Option.bind_some, Option.map_some]
      · exact ⟨fun b => (hrewired'.val b).trans (hrewired.val b), fun b hb =>
          (hrewired'.frame b hb).trans (hrewired.frame b fun hb' => hb (List.mem_cons_of_mem a hb'))⟩

/-- **The chain of a tree** has its nodes in preorder, and the last one is returned. -/
theorem preTravel_spec (h : InMemory heap t (some a)) {fuel : ℕ} (hfuel : t.height ≤ fuel) :
    Flattens heap t a (preTravel fuel heap a) := by
  induction t generalizing heap a fuel with
  | nil => exact absurd h.stands (Option.some_ne_none a)
  | node b l r ihl ihr =>
      obtain rfl := Option.some.inj h.stands.1
      rw [BinaryTree.height] at hfuel
      obtain ⟨fuel, rfl⟩ := Nat.exists_eq_add_one_of_ne_zero (show fuel ≠ 0 by omega)
      rw [preTravel]
      by_cases hleaf : (heap a).left = none ∧ (heap a).right = none
      · rw [if_pos hleaf, h.left.stands.eq_nil hleaf.1, h.right.stands.eq_nil hleaf.2]
        refine ⟨heap, [], a, rfl, rfl, ⟨⟨rfl, hleaf.2⟩, ?_⟩, fun b => rfl, fun b _ => rfl⟩
        exact fun b hb => List.mem_singleton.mp hb ▸ hleaf.1
      · obtain ⟨heap₁, ptr, hrun, hflat, hrewired, hptr⟩ := travelLeft_spec (preTravel fuel heap) h
          fun c hleft => ihl (hleft ▸ h.left) (by omega)
        rw [if_neg hleaf, hrun]
        cases hright : (heap a).right with
        | none =>
            obtain ⟨as, z, hpre, rfl⟩ := hptr.resolve_left fun hleft => hleaf ⟨hleft, hright⟩
            rw [hright] at hflat
            rw [h.right.stands.eq_nil hright, Flattens, preorder_node, preorder_nil, List.append_nil]
            exact ⟨heap₁, a :: as, z, rfl, congrArg (a :: ·) hpre, hflat, hrewired⟩
        | some c =>
            have hother : ∀ b ∈ preorder r, b ∉ a :: preorder l := by
              intro b hb hb'
              rcases List.mem_cons.mp hb' with rfl | hb'
              · exact h.not_mem.2 hb
              · exact h.disjoint hb' hb
            have hr : InMemory heap₁ r (some c) :=
              (hright ▸ h.right).congr fun b hb => hrewired.frame b (hother b hb)
            have hheight : r.height ≤ fuel := by omega
            obtain ⟨heap₂, as, z, hrun₂, hpre₂, hflat₂, hrewired₂⟩ := ihr hr hheight
            have hkeep := hflat.congr fun b hb => hrewired₂.frame b fun hb' => hother b hb' hb
            rw [hright] at hkeep
            refine ⟨heap₂, a :: preorder l ++ as, z, hrun₂, ?_, hkeep.append hflat₂, hrewired.trans hrewired₂⟩
            rw [preorder_node, hpre₂, List.cons_append, List.cons_append, List.append_assoc]

/-- **The chain** of a binary tree: no left children, and the nodes in preorder along the right ones. -/
theorem flatten_spec (heap : ℕ → Node ℕ ℤ) (t : BinaryTree ℕ) (root : Option ℕ) (h : InMemory heap t root) :
    ∀ fuel, t.height ≤ fuel →
      (∃ heap', flatten fuel heap root = some heap' ∧ Flat heap' root (preorder t) none ∧
        (preorder t).Nodup ∧ Rewired heap heap' (preorder t)) ∧
      ∀ p, root = some p → ∃ heap' z, preTravel fuel heap p = some (heap', some z) ∧
        (preorder t).getLast? = some z ∧ flatten fuel heap root = some heap' := by
  intro fuel hfuel
  cases root with
  | none =>
      obtain rfl := h.stands.eq_nil rfl
      refine ⟨⟨heap, rfl, ⟨rfl, ?_⟩, h.nodup, fun a => rfl, fun a _ => rfl⟩, fun p hp => ?_⟩
      · exact fun a ha => absurd ha List.not_mem_nil
      · exact absurd hp.symm (Option.some_ne_none p)
  | some a =>
      obtain ⟨heap', as, z, hrun, hpre, hflat, hrewired⟩ := preTravel_spec h hfuel
      have hflatten : flatten fuel heap (some a) = some heap' := by rw [flatten, hrun]; rfl
      refine ⟨⟨heap', hflatten, hflat, h.nodup, hrewired⟩, fun p hp => ?_⟩
      obtain rfl := Option.some.inj hp
      exact ⟨heap', z, hrun, by rw [hpre, List.getLast?_concat], hflatten⟩

/-- A root with a left child that has a right one. -/
theorem flatten_spec_three :
    ∃ heap', flatten 3 (fun a => if a = 1 then ⟨10, some 2, none⟩ else if a = 2 then ⟨20, none, some 3⟩
      else ⟨30, none, none⟩) (some 1) = some heap' ∧ Flat heap' (some 1) [1, 2, 3] none := by
  let heap : ℕ → Node ℕ ℤ := fun a =>
    if a = 1 then ⟨10, some 2, none⟩ else if a = 2 then ⟨20, none, some 3⟩ else ⟨30, none, none⟩
  have hstands : Stands heap (.node 1 (.node 2 .nil (.node 3 .nil .nil)) .nil) (some 1) :=
    ⟨rfl, ⟨rfl, rfl, rfl, rfl, rfl⟩, rfl⟩
  obtain ⟨⟨heap', hrun, hflat, -⟩, -⟩ := flatten_spec heap _ (some 1) ⟨hstands, by decide⟩ 3 (by decide)
  exact ⟨heap', hrun, hflat⟩

end Asenal.Acm
