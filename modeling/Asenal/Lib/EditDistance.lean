import Mathlib.Data.List.Basic
import Mathlib.Order.Bounds.Basic

/-!
# Edit distance

A list is edited by inserting, deleting and replacing single elements. A script reads both lists from their
beginnings and goes through each of them once.

* `edits_iff_script` — edits in any order and at any places are worth a script.
* `isLeast_dist` — the distance by the usual recursion is the cost of the cheapest script.
* `edits_iff_dist` — the distance and the number of edits.
-/

namespace Asenal.Lib.EditDistance

variable {α : Type*}

/-- One element is inserted, deleted or replaced. -/
inductive Edit : List α → List α → Prop
  | insert (l r : List α) (a : α) : Edit (l ++ r) (l ++ a :: r)
  | delete (l r : List α) (a : α) : Edit (l ++ a :: r) (l ++ r)
  | replace (l r : List α) (a b : α) : Edit (l ++ a :: r) (l ++ b :: r)

/-- As many edits one after another. -/
inductive Edits : ℕ → List α → List α → Prop
  | refl (xs : List α) : Edits 0 xs xs
  | step {n xs ys zs} : Edits n xs ys → Edit ys zs → Edits (n + 1) xs zs

/-- Both lists are read from their beginnings, with as many elements that are not kept. -/
inductive Script : ℕ → List α → List α → Prop
  | nil : Script 0 [] []
  | keep {n xs ys} (a : α) : Script n xs ys → Script n (a :: xs) (a :: ys)
  | replace {n xs ys} (a b : α) : Script n xs ys → Script (n + 1) (a :: xs) (b :: ys)
  | insert {n xs ys} (b : α) : Script n xs ys → Script (n + 1) xs (b :: ys)
  | delete {n xs ys} (a : α) : Script n xs ys → Script (n + 1) (a :: xs) ys

variable {xs ys zs xs' ys' : List α} {m n : ℕ} {a b : α}

/-! ## Edits and scripts -/

/-- An edit behind a letter. -/
theorem Edit.cons (h : Edit xs ys) (a : α) : Edit (a :: xs) (a :: ys) := by
  cases h with
  | insert l r b => exact .insert (a :: l) r b
  | delete l r b => exact .delete (a :: l) r b
  | replace l r b c => exact .replace (a :: l) r b c

/-- Edits behind a letter. -/
theorem Edits.cons (h : Edits n xs ys) (a : α) : Edits n (a :: xs) (a :: ys) := by
  induction h with
  | refl xs => exact .refl _
  | step _ hedit ih => exact ih.step (hedit.cons a)

/-- A script as edits. -/
theorem Script.edits (h : Script n xs ys) : Edits n xs ys := by
  induction h with
  | nil => exact .refl []
  | keep a _ ih => exact ih.cons a
  | @replace n xs ys a b _ ih => exact (ih.cons a).step (.replace [] ys a b)
  | @insert n xs ys b _ ih => exact ih.step (.insert [] ys b)
  | @delete n xs ys a _ ih => exact (ih.cons a).step (.delete [] ys a)

/-- Nothing to edit. -/
theorem script_refl (xs : List α) : Script 0 xs xs := by
  induction xs with
  | nil => exact .nil
  | cons a xs ih => exact ih.keep a

/-- Two scripts, one behind the other. -/
theorem Script.append (h : Script m xs ys) (h' : Script n xs' ys') :
    Script (m + n) (xs ++ xs') (ys ++ ys') := by
  induction h with
  | nil => rwa [Nat.zero_add]
  | keep a _ ih => exact ih.keep a
  | replace a b _ ih =>
      rw [Nat.add_right_comm]
      exact ih.replace a b
  | insert b _ ih =>
      rw [Nat.add_right_comm]
      exact ih.insert b
  | delete a _ ih =>
      rw [Nat.add_right_comm]
      exact ih.delete a

/-- **A script for a list in two parts** is one for each part. -/
theorem Script.split (h : Script n xs (ys ++ ys')) : ∃ m₁ m₂ xs₁ xs₂, n = m₁ + m₂ ∧ xs = xs₁ ++ xs₂ ∧
    Script m₁ xs₁ ys ∧ Script m₂ xs₂ ys' := by
  induction ys generalizing n xs with
  | nil => exact ⟨0, n, [], xs, (Nat.zero_add n).symm, rfl, .nil, h⟩
  | cons c ys ih =>
      generalize hzs : c :: ys ++ ys' = zs at h
      induction h with
      | nil => cases hzs
      | @keep n xs zs a hscript =>
          obtain ⟨rfl, rfl⟩ := List.cons.inj hzs
          obtain ⟨m₁, m₂, xs₁, xs₂, rfl, rfl, h₁, h₂⟩ := ih hscript
          exact ⟨m₁, m₂, c :: xs₁, xs₂, rfl, rfl, h₁.keep c, h₂⟩
      | @replace n xs zs a b hscript =>
          obtain ⟨rfl, rfl⟩ := List.cons.inj hzs
          obtain ⟨m₁, m₂, xs₁, xs₂, rfl, rfl, h₁, h₂⟩ := ih hscript
          exact ⟨m₁ + 1, m₂, a :: xs₁, xs₂, Nat.add_right_comm .., rfl, h₁.replace a c, h₂⟩
      | @insert n xs zs b hscript =>
          obtain ⟨rfl, rfl⟩ := List.cons.inj hzs
          obtain ⟨m₁, m₂, xs₁, xs₂, rfl, rfl, h₁, h₂⟩ := ih hscript
          exact ⟨m₁ + 1, m₂, xs₁, xs₂, Nat.add_right_comm .., rfl, h₁.insert c, h₂⟩
      | @delete n xs zs a _ ihdel =>
          obtain ⟨m₁, m₂, xs₁, xs₂, rfl, rfl, h₁, h₂⟩ := ihdel hzs
          exact ⟨m₁ + 1, m₂, a :: xs₁, xs₂, Nat.add_right_comm .., rfl, h₁.delete a, h₂⟩

/-- The first element of the result is left out. -/
theorem Script.tail (h : Script n xs (a :: ys)) : ∃ m ≤ n + 1, Script m xs ys := by
  generalize hzs : a :: ys = zs at h
  induction h with
  | nil => cases hzs
  | @keep n xs zs b h =>
      obtain ⟨-, rfl⟩ := List.cons.inj hzs
      exact ⟨n + 1, Nat.le_refl _, h.delete b⟩
  | @replace n xs zs b c h =>
      obtain ⟨-, rfl⟩ := List.cons.inj hzs
      exact ⟨n + 1, Nat.le_succ _, h.delete b⟩
  | @insert n xs zs b h =>
      obtain ⟨-, rfl⟩ := List.cons.inj hzs
      exact ⟨n, by omega, h⟩
  | @delete n xs zs b h ih =>
      obtain ⟨m, hm, h'⟩ := ih hzs
      exact ⟨m + 1, Nat.succ_le_succ hm, h'.delete b⟩

/-- The first element of the result is another one. -/
theorem Script.exchange (h : Script n xs (a :: ys)) (b : α) : ∃ m ≤ n + 1, Script m xs (b :: ys) := by
  generalize hzs : a :: ys = zs at h
  induction h with
  | nil => cases hzs
  | @keep n xs zs c h =>
      obtain ⟨-, rfl⟩ := List.cons.inj hzs
      exact ⟨n + 1, Nat.le_refl _, h.replace c b⟩
  | @replace n xs zs c d h =>
      obtain ⟨-, rfl⟩ := List.cons.inj hzs
      exact ⟨n + 1, Nat.le_succ _, h.replace c b⟩
  | @insert n xs zs c h =>
      obtain ⟨-, rfl⟩ := List.cons.inj hzs
      exact ⟨n + 1, Nat.le_succ _, h.insert b⟩
  | @delete n xs zs c h ih =>
      obtain ⟨m, hm, h'⟩ := ih hzs
      exact ⟨m + 1, Nat.succ_le_succ hm, h'.delete c⟩

/-- **One more edit** of the result costs one more at most. -/
theorem Script.edit (h : Script n xs ys) (hedit : Edit ys zs) : ∃ m ≤ n + 1, Script m xs zs := by
  cases hedit with
  | insert l r a =>
      obtain ⟨m₁, m₂, xs₁, xs₂, rfl, rfl, h₁, h₂⟩ := h.split
      exact ⟨_, by omega, h₁.append (h₂.insert a)⟩
  | delete l r a =>
      obtain ⟨m₁, m₂, xs₁, xs₂, rfl, rfl, h₁, h₂⟩ := h.split
      obtain ⟨m, hm, h₂'⟩ := h₂.tail
      exact ⟨_, by omega, h₁.append h₂'⟩
  | replace l r a b =>
      obtain ⟨m₁, m₂, xs₁, xs₂, rfl, rfl, h₁, h₂⟩ := h.split
      obtain ⟨m, hm, h₂'⟩ := h₂.exchange b
      exact ⟨_, by omega, h₁.append h₂'⟩

/-- **Edits in any order** are worth a script. -/
theorem edits_iff_script : (∃ m ≤ n, Edits m xs ys) ↔ ∃ m ≤ n, Script m xs ys := by
  constructor
  · rintro ⟨m, hm, h⟩
    induction h generalizing n with
    | refl xs => exact ⟨0, Nat.zero_le n, script_refl xs⟩
    | @step k xs ys zs _ hedit ih =>
        obtain ⟨m, hm', hscript⟩ := ih (Nat.le_refl k)
        obtain ⟨m', hm'', hscript'⟩ := hscript.edit hedit
        exact ⟨m', by omega, hscript'⟩
  · exact fun ⟨m, hm, h⟩ => ⟨m, hm, h.edits⟩

/-- A script from the ends of the lists. -/
theorem Script.reverse (h : Script n xs ys) : Script n xs.reverse ys.reverse := by
  induction h with
  | nil => exact .nil
  | keep a _ ih =>
      rw [List.reverse_cons, List.reverse_cons]
      exact ih.append (Script.nil.keep a)
  | replace a b _ ih =>
      rw [List.reverse_cons, List.reverse_cons]
      exact ih.append (Script.nil.replace a b)
  | insert b _ ih =>
      rw [List.reverse_cons]
      simpa using ih.append (Script.nil.insert b)
  | delete a _ ih =>
      rw [List.reverse_cons]
      simpa using ih.append (Script.nil.delete a)

/-- A script from behind. -/
theorem script_reverse_iff : Script n xs.reverse ys.reverse ↔ Script n xs ys :=
  ⟨fun h => by simpa using h.reverse, Script.reverse⟩

/-! ## The distance -/

variable [DecidableEq α]

/-- The distance of two lists. -/
def dist : List α → List α → ℕ
  | [], ys => ys.length
  | a :: xs, [] => xs.length + 1
  | a :: xs, b :: ys =>
      min (dist xs ys + if a = b then 0 else 1) (min (dist xs (b :: ys) + 1) (dist (a :: xs) ys + 1))

/-- All letters are deleted. -/
@[simp] theorem dist_nil (xs : List α) : dist xs [] = xs.length := by
  cases xs <;> simp [dist]

/-- All letters are inserted. -/
@[simp] theorem nil_dist (ys : List α) : dist [] ys = ys.length := by
  simp [dist]

/-- The best of the three last edits. -/
theorem script_dist_cons (hdiagonal : Script (dist xs ys) xs ys)
    (hdelete : Script (dist xs (b :: ys)) xs (b :: ys)) (hinsert : Script (dist (a :: xs) ys) (a :: xs) ys) :
    Script (dist (a :: xs) (b :: ys)) (a :: xs) (b :: ys) := by
  have hkeep : Script (dist xs ys + if a = b then 0 else 1) (a :: xs) (b :: ys) := by
    split_ifs with heq
    · exact heq ▸ hdiagonal.keep a
    · exact hdiagonal.replace a b
  rw [dist]
  refine min_rec' (Script · (a :: xs) (b :: ys)) hkeep ?_
  exact min_rec' (Script · (a :: xs) (b :: ys)) (hdelete.delete a) (hinsert.insert b)

/-- **The distance** is the cost of the cheapest script. -/
theorem isLeast_dist (xs ys : List α) : IsLeast {n | Script n xs ys} (dist xs ys) := by
  induction xs generalizing ys with
  | nil =>
      rw [nil_dist]
      induction ys with
      | nil => exact ⟨.nil, fun n _ => Nat.zero_le n⟩
      | cons b ys ih =>
          refine ⟨ih.1.insert b, fun n hn => ?_⟩
          cases hn with
          | insert _ h => exact Nat.succ_le_succ (ih.2 h)
  | cons a xs ihx =>
      induction ys with
      | nil =>
          have hnil := ihx []
          rw [dist_nil] at hnil ⊢
          refine ⟨hnil.1.delete a, fun n hn => ?_⟩
          cases hn with
          | delete _ h => exact Nat.succ_le_succ (hnil.2 h)
      | cons b ys ihy =>
          have hdiagonal := ihx ys
          have hdelete := ihx (b :: ys)
          refine ⟨script_dist_cons hdiagonal.1 hdelete.1 ihy.1, fun n hn => ?_⟩
          rw [dist]
          cases hn with
          | keep _ h =>
              have := hdiagonal.2 h
              rw [if_pos rfl]
              omega
          | replace _ _ h =>
              have := hdiagonal.2 h
              split_ifs <;> omega
          | insert _ h =>
              have := ihy.2 h
              omega
          | delete _ h =>
              have := hdelete.2 h
              omega

/-- **The distance from the ends** is within a bound where as many edits are enough. -/
theorem edits_iff_dist : (∃ m ≤ n, Edits m xs ys) ↔ dist xs.reverse ys.reverse ≤ n := by
  obtain ⟨hscript, hleast⟩ := isLeast_dist xs.reverse ys.reverse
  rw [edits_iff_script]
  constructor
  · rintro ⟨m, hm, h⟩
    exact (hleast (script_reverse_iff.mpr h)).trans hm
  · exact fun h => ⟨_, h, script_reverse_iff.mp hscript⟩

end Asenal.Lib.EditDistance
