import Mathlib.Data.List.Dedup
import Mathlib.Data.List.TakeWhile
import Mathlib.Data.List.Triplewise
import Mathlib.Order.Lattice

/-!
# Runs of equal keys

Lists in which the elements of one key stand next to each other, as they do in a list that is sorted by
the key: such a list is a run of the key of its first element, and behind the run there is none of that
key.

* `Adjacent.takeWhile_eq_filter`, `Adjacent.dropWhile_ne`, `Adjacent.dropWhile` — the first run and what
  stands behind it.
* `adjacent_of_sorted` — a sorted list is one.
* `map_eq_of_perm_sorted` — two sorted orders of the same elements agree up to elements of one key.
* `mem_take_iff_largest` — the first elements of a list that is sorted by the key, the largest first.
-/

namespace Asenal.Lib.Runs

variable {α κ β : Type*} {key : α → κ}

/-- Between two elements of one key there is none of another. -/
def Adjacent (key : α → κ) (l : List α) : Prop :=
  l.Triplewise fun x y z => key x = key z → key y = key x

theorem adjacent_cons {x : α} {l : List α} :
    Adjacent key (x :: l) ↔
      l.Pairwise (fun y z => key x = key z → key y = key x) ∧ Adjacent key l :=
  List.triplewise_cons

section

variable [DecidableEq κ]

/-- Behind the first run there is no element of its key. -/
theorem Adjacent.dropWhile_ne {x : α} {l : List α} (h : Adjacent key (x :: l)) :
    ∀ y ∈ l.dropWhile (fun y => key y = key x), key y ≠ key x := by
  have hpair := (adjacent_cons.mp h).1
  induction l with
  | nil => exact fun y hy => absurd hy List.not_mem_nil
  | cons z l ih =>
      rw [adjacent_cons, adjacent_cons] at h
      rw [List.pairwise_cons] at hpair
      by_cases hz : key z = key x
      · rw [List.dropWhile_cons_of_pos (by simpa using hz)]
        exact ih (adjacent_cons.mpr ⟨hpair.2, h.2.2⟩) hpair.2
      · rw [List.dropWhile_cons_of_neg (by simpa using hz)]
        intro y hy
        rcases List.mem_cons.mp hy with rfl | hmem
        · exact hz
        · exact fun hy => hz (hpair.1 y hmem hy.symm)

/-- The first run holds all elements of its key. -/
theorem Adjacent.takeWhile_eq_filter {x : α} {l : List α} (h : Adjacent key (x :: l)) :
    l.takeWhile (fun y => key y = key x) = l.filter fun y => key y = key x := by
  have hrest : (l.dropWhile fun y => key y = key x).filter (fun y => key y = key x) = [] := by
    rw [List.filter_eq_nil_iff]
    intro y hy
    simpa using h.dropWhile_ne y hy
  have hrun : (l.takeWhile fun y => key y = key x).filter (fun y => key y = key x) =
      l.takeWhile fun y => key y = key x := by
    rw [List.filter_eq_self]
    intro y hy
    have hkey := List.mem_takeWhile_imp hy
    exact hkey
  conv_rhs => rw [← List.takeWhile_append_dropWhile (p := fun y => key y = key x) (l := l)]
  rw [List.filter_append, hrest, hrun, List.append_nil]

/-- What stands behind the first run has its elements of one key next to each other, too. -/
theorem Adjacent.dropWhile {l : List α} (h : Adjacent key l) (k : κ) :
    Adjacent key (l.dropWhile fun y => key y = k) := by
  induction l with
  | nil => exact h
  | cons z l ih =>
      by_cases hz : key z = k
      · rw [List.dropWhile_cons_of_pos (by simpa using hz)]
        exact ih (adjacent_cons.mp h).2
      · rw [List.dropWhile_cons_of_neg (by simpa using hz)]
        exact h

/-- The distinct keys: the first one, and those behind its run. -/
theorem Adjacent.dedup_map {x : α} {l : List α} (h : Adjacent key (x :: l)) :
    ((x :: l).map key).dedup =
      key x :: ((l.dropWhile fun y => key y = key x).map key).dedup := by
  induction l with
  | nil => rfl
  | cons z l ih =>
      have hne := h.dropWhile_ne
      rw [adjacent_cons, adjacent_cons, List.pairwise_cons] at h
      by_cases hz : key z = key x
      · have hxl : Adjacent key (x :: l) := adjacent_cons.mpr ⟨h.1.2, h.2.2⟩
        have hih := ih hxl
        rw [List.map_cons] at hih
        rw [List.dropWhile_cons_of_pos (by simpa using hz), List.map_cons, List.map_cons, hz,
          List.dedup_cons_of_mem List.mem_cons_self, hih]
      · rw [List.dropWhile_cons_of_neg (by simpa using hz)] at hne ⊢
        have hnot : key x ∉ (z :: l).map key := by
          rw [List.mem_map]
          rintro ⟨y, hy, heq⟩
          exact hne y hy heq
        rw [List.map_cons, List.dedup_cons_of_notMem hnot]

end

/-- In a list that is sorted by the key, the elements of one key stand next to each other. -/
theorem adjacent_of_sorted [PartialOrder κ] {l : List α} (h : l.Pairwise fun x y => key x ≤ key y) :
    Adjacent key l := by
  induction l with
  | nil => exact List.Triplewise.nil
  | cons x l ih =>
      rw [List.pairwise_cons] at h
      refine adjacent_cons.mpr ⟨?_, ih h.2⟩
      refine h.2.imp_of_mem fun {y z} hy _ hyz heq => ?_
      exact le_antisymm (heq ▸ hyz) (h.1 y hy)

/-- **Two sorted orders of the same elements** give the same list of what depends on the key only. -/
theorem map_eq_of_perm_sorted [PartialOrder κ] (key : α → κ) {f : α → β} {l m : List α} (hperm : l.Perm m)
    (hl : l.Pairwise fun x y => key x ≤ key y) (hm : m.Pairwise fun x y => key x ≤ key y)
    (hf : ∀ x ∈ l, ∀ y ∈ l, key x = key y → f x = f y) : l.map f = m.map f := by
  have hpairs : l.map (fun x => (key x, f x)) = m.map fun x => (key x, f x) := by
    have hantisymm : ∀ p q, p ∈ l.map (fun x => (key x, f x)) → q ∈ m.map (fun x => (key x, f x)) →
        p.1 ≤ q.1 → q.1 ≤ p.1 → p = q := by
      intro p q hp hq hpq hqp
      obtain ⟨x, hx, rfl⟩ := List.mem_map.mp hp
      obtain ⟨y, hy, rfl⟩ := List.mem_map.mp hq
      have hkey : key x = key y := le_antisymm hpq hqp
      exact Prod.ext hkey (hf x hx y (hperm.mem_iff.mpr hy) hkey)
    apply List.Perm.eq_of_pairwise hantisymm ?_ ?_ (hperm.map _)
    · exact List.pairwise_map.mpr hl
    · exact List.pairwise_map.mpr hm
  have hsnd := congrArg (List.map Prod.snd) hpairs
  rw [List.map_map, List.map_map] at hsnd
  exact hsnd

/-! ## The largest elements -/

section

variable [LinearOrder κ]

/-- An element of the list with fewer than `n` larger ones. -/
def Largest (key : α → κ) (n : ℕ) (l : List α) (x : α) : Prop :=
  x ∈ l ∧ l.countP (fun y => key x < key y) < n

theorem Largest.perm {l m : List α} {n : ℕ} {x : α} (hperm : l.Perm m) :
    Largest key n l x ↔ Largest key n m x := by
  unfold Largest
  rw [hperm.mem_iff, hperm.countP_eq]

/-- **The first elements of a sorted list** are the largest ones. -/
theorem mem_take_iff_largest {l : List α} (hl : l.Pairwise fun x y => key y < key x) (n : ℕ) (x : α) :
    x ∈ l.take n ↔ Largest key n l x := by
  induction l generalizing n with
  | nil => exact iff_of_false (by simp) fun h => absurd h.1 List.not_mem_nil
  | cons y l ih =>
      obtain ⟨hy, hl⟩ := List.pairwise_cons.mp hl
      cases n with
      | zero => exact iff_of_false (by simp) fun h => absurd h.2 (Nat.not_lt_zero _)
      | succ n =>
          rw [List.take_succ_cons, List.mem_cons, ih hl]
          unfold Largest
          by_cases hx : x = y
          · subst hx
            have hnone : l.countP (fun z => decide (key x < key z)) = 0 :=
              List.countP_eq_zero.mpr fun z hz => by simpa using (hy z hz).le
            rw [List.countP_cons, hnone, if_neg (by simp)]
            exact iff_of_true (Or.inl rfl) ⟨List.mem_cons_self, Nat.succ_pos n⟩
          · constructor
            · intro h
              obtain ⟨hmem, hcount⟩ := h.resolve_left hx
              rw [List.countP_cons, if_pos (decide_eq_true (hy x hmem))]
              exact ⟨List.mem_cons_of_mem y hmem, Nat.succ_lt_succ hcount⟩
            · intro h
              have hmem := (List.mem_cons.mp h.1).resolve_left hx
              have hcount := h.2
              rw [List.countP_cons, if_pos (decide_eq_true (hy x hmem))] at hcount
              exact Or.inr ⟨hmem, Nat.lt_of_succ_lt_succ hcount⟩

end

end Asenal.Lib.Runs
