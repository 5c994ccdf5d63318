import Mathlib.Data.List.Nodup
import Mathlib.Data.List.Perm.Subperm
import Mathlib.Order.Bounds.Basic

/-!
# Breadth-first search

A search that keeps a queue of numbered places and the list of the ones already seen, and stops as soon as the
goal is a neighbour of the place in front.

* `Reach` — what can be reached, and with which number.
* `Layers` — what holds in between two rounds.
* `search_least` — the number that is found is the least one.
-/

namespace Asenal.Lib.Breadth

variable {α : Type*} {r : α → α → Prop} {base n m fuel : ℕ} {start goal x y : α} {next : α → List α} {seen U : List α}
  {done queue : List (α × ℕ)}

/-! ## Numbered places -/

/-- The start has the number `base`, and each step counts one. -/
inductive Reach (r : α → α → Prop) (base : ℕ) (start : α) : ℕ → α → Prop
  | start : Reach r base start base start
  | step {n : ℕ} {x y : α} : Reach r base start n x → r x y → Reach r base start (n + 1) y

/-- The least number of the goal; `none` if it has none. -/
def Least (r : α → α → Prop) (base : ℕ) (start goal : α) : Option ℕ → Prop
  | none => ∀ n, ¬ Reach r base start n goal
  | some n => IsLeast {n | Reach r base start n goal} n

theorem Reach.mono {s : α → α → Prop} (h : ∀ {x y}, r x y → s x y) (hy : Reach r base start n y) :
    Reach s base start n y := by
  induction hy with
  | start => exact .start
  | step _ hxy ih => exact ih.step (h hxy)

theorem Least.congr {s : α → α → Prop} (h : ∀ n, Reach r base start n goal ↔ Reach s base start n goal)
    {o : Option ℕ} : Least r base start goal o ↔ Least s base start goal o := by
  cases o <;> simp [Least, IsLeast, lowerBounds, h]

/-! ## Layers -/

/-- What holds in between two rounds. The numbers in the queue are those of one layer, and then those of the
next one; `done` are the places whose neighbours have been looked at. -/
structure Layers (next : α → List α) (base : ℕ) (start goal : α) (done queue : List (α × ℕ)) (seen : List α) :
    Prop where
  reach : ∀ p ∈ queue, Reach (fun x y => y ∈ next x) base start p.2 p.1
  sorted : queue.Pairwise fun p q => p.2 ≤ q.2
  near : ∀ p ∈ queue, ∀ q ∈ queue, q.2 ≤ p.2 + 1
  before : ∀ p ∈ done, ∀ q ∈ queue, p.2 ≤ q.2
  first : (start, base) ∈ done ++ queue
  next : ∀ p ∈ done, ∀ y ∈ next p.1, y ≠ goal ∧ ∃ n ≤ p.2 + 1, (y, n) ∈ done ++ queue
  seen : ∀ y ∈ seen, ∃ n, (y, n) ∈ done ++ queue

/-- What has a number below the ones in the queue has been found, with this number or a lower one. -/
theorem Layers.found (h : Layers next base start goal done queue seen) (hne : start ≠ goal)
    (hy : Reach (fun x y => y ∈ next x) base start m y) (hm : ∀ p ∈ queue, m ≤ p.2) :
    y ≠ goal ∧ ∃ n ≤ m, (y, n) ∈ done ++ queue := by
  induction hy with
  | start => exact ⟨hne, base, le_refl _, h.first⟩
  | @step m x y _ hxy ih =>
      obtain ⟨-, n, hn, hmem⟩ := ih fun p hp => (Nat.le_succ m).trans (hm p hp)
      rcases List.mem_append.mp hmem with hdone | hqueue
      · obtain ⟨hgoal, k, hk, hmem⟩ := h.next _ hdone y hxy
        exact ⟨hgoal, k, hk.trans (Nat.succ_le_succ hn), hmem⟩
      · have := hm _ hqueue
        omega

/-- Every place in the queue has its number from the front one on. -/
theorem Layers.head_le (h : Layers next base start goal done ((x, n) :: queue) seen) :
    ∀ p ∈ (x, n) :: queue, n ≤ p.2 := by
  intro p hp
  rcases List.mem_cons.mp hp with rfl | hp
  · exact le_refl _
  · exact (List.pairwise_cons.mp h.sorted).1 p hp

/-- **A round** that does not find the goal. -/
theorem Layers.step (h : Layers next base start goal done ((x, n) :: queue) seen) (hgoal : goal ∉ next x)
    {new : List α} (hnew : ∀ y ∈ new, y ∈ next x) (hall : ∀ y ∈ next x, y ∈ new ∨ y ∈ seen) :
    Layers next base start goal ((x, n) :: done) (queue ++ new.map fun y => (y, n + 1)) (new.reverse ++ seen) := by
  have hhead := h.head_le
  have hle : ∀ p ∈ queue, n ≤ p.2 := fun p hp => hhead p (List.mem_cons_of_mem _ hp)
  have hge : ∀ p ∈ queue, p.2 ≤ n + 1 := fun p hp =>
    h.near _ List.mem_cons_self p (List.mem_cons_of_mem _ hp)
  have hqueue : ∀ p ∈ queue ++ new.map fun y => (y, n + 1), n ≤ p.2 ∧ p.2 ≤ n + 1 := by
    intro p hp
    rcases List.mem_append.mp hp with hp | hp
    · exact ⟨hle p hp, hge p hp⟩
    · obtain ⟨y, -, rfl⟩ := List.mem_map.mp hp
      exact ⟨Nat.le_succ n, le_refl _⟩
  -- nothing that was known is lost
  have hkeep : ∀ p ∈ done ++ (x, n) :: queue, p ∈ (x, n) :: done ++ (queue ++ new.map fun y => (y, n + 1)) := by
    intro p hp
    simp only [List.mem_append, List.mem_cons] at hp ⊢
    tauto
  have hadd : ∀ y ∈ new, (y, n + 1) ∈ (x, n) :: done ++ (queue ++ new.map fun y => (y, n + 1)) := by
    intro y hy
    exact List.mem_append_right _ (List.mem_append_right _ (List.mem_map.mpr ⟨y, hy, rfl⟩))
  have hdone : ∀ p ∈ (x, n) :: done, p.2 ≤ n := by
    intro p hp
    rcases List.mem_cons.mp hp with rfl | hp
    · exact le_refl _
    · exact h.before p hp _ List.mem_cons_self
  refine ⟨fun p hp => ?_, ?_, fun p hp q hq => ?_, fun p hp q hq => ?_, hkeep _ h.first, fun p hp y hy => ?_,
    fun y hy => ?_⟩
  · rcases List.mem_append.mp hp with hp | hp
    · exact h.reach p (List.mem_cons_of_mem _ hp)
    · obtain ⟨y, hy, rfl⟩ := List.mem_map.mp hp
      exact (h.reach _ List.mem_cons_self).step (hnew y hy)
  · refine List.pairwise_append.mpr ⟨(List.pairwise_cons.mp h.sorted).2, ?_, fun p hp q hq => ?_⟩
    · exact List.pairwise_map.mpr (List.pairwise_of_forall fun _ _ => le_refl _)
    · obtain ⟨y, -, rfl⟩ := List.mem_map.mp hq
      exact hge p hp
  · have hp := hqueue p hp
    have hq := hqueue q hq
    omega
  · exact (hdone p hp).trans (hqueue q hq).1
  · rcases List.mem_cons.mp hp with rfl | hp
    · refine ⟨fun e => hgoal (e ▸ hy), ?_⟩
      rcases hall y hy with hy | hy
      · exact ⟨n + 1, le_refl _, hadd y hy⟩
      · obtain ⟨k, hk⟩ := h.seen y hy
        have hmem := hkeep _ hk
        refine ⟨k, ?_, hmem⟩
        rcases List.mem_append.mp hmem with hmem | hmem
        · exact (hdone _ hmem).trans (Nat.le_succ n)
        · exact (hqueue _ hmem).2
    · obtain ⟨hne, k, hk, hmem⟩ := h.next p hp y hy
      exact ⟨hne, k, hk, hkeep _ hmem⟩
  · rcases List.mem_append.mp hy with hy | hy
    · exact ⟨n + 1, hadd y (List.mem_reverse.mp hy)⟩
    · obtain ⟨k, hk⟩ := h.seen y hy
      exact ⟨k, hkeep _ hk⟩

/-! ## The search -/

variable [DecidableEq α]

/-- Looks for the goal among `ys`, and puts the new ones at the end of the queue. -/
def scan (goal : α) (n : ℕ) : List α → List (α × ℕ) → List α → Except ℕ (List (α × ℕ) × List α)
  | [], queue, seen => .ok (queue, seen)
  | y :: ys, queue, seen =>
      if y = goal then .error n
      else if y ∈ seen then scan goal n ys queue seen
      else scan goal n ys (queue ++ [(y, n)]) (y :: seen)

/-- The search, with `fuel` rounds at most. -/
def search (next : α → List α) (goal : α) : ℕ → List (α × ℕ) → List α → Option (Option ℕ)
  | 0, _, _ => none
  | _ + 1, [], _ => some none
  | fuel + 1, (x, n) :: queue, seen =>
      match scan goal (n + 1) (next x) queue seen with
      | .error n => some (some n)
      | .ok (queue, seen) => search next goal fuel queue seen

theorem scan_cons (goal : α) (n : ℕ) (y : α) (ys : List α) (queue : List (α × ℕ)) (seen : List α) :
    scan goal n (y :: ys) queue seen = (scan goal n [y] queue seen).bind fun p => scan goal n ys p.1 p.2 := by
  by_cases hgoal : y = goal
  · simp [scan, hgoal, Except.bind]
  · by_cases hseen : y ∈ seen <;> simp [scan, hgoal, hseen, Except.bind]

/-- **One scan** finds the goal, or adds what is new. -/
theorem scan_cases (goal : α) (n : ℕ) (ys : List α) (queue : List (α × ℕ)) (seen : List α) :
    (goal ∈ ys ∧ scan goal n ys queue seen = .error n) ∨
    (goal ∉ ys ∧ ∃ new : List α, scan goal n ys queue seen =
        .ok (queue ++ new.map fun y => (y, n), new.reverse ++ seen) ∧
      new.Nodup ∧ (∀ y ∈ new, y ∈ ys ∧ y ∉ seen) ∧ ∀ y ∈ ys, y ∈ new ∨ y ∈ seen) := by
  induction ys generalizing queue seen with
  | nil => exact .inr ⟨List.not_mem_nil, [], by simp [scan], .nil, by simp, by simp⟩
  | cons y ys ih =>
      by_cases hgoal : y = goal
      · exact .inl ⟨by simp [hgoal], by simp [scan, hgoal]⟩
      by_cases hseen : y ∈ seen
      · have hscan : scan goal n (y :: ys) queue seen = scan goal n ys queue seen := by
          simp [scan, hgoal, hseen]
        rw [hscan]
        rcases ih queue seen with ⟨hmem, h⟩ | ⟨hmem, new, h, hnd, hnew, hall⟩
        · exact .inl ⟨List.mem_cons_of_mem y hmem, h⟩
        · refine .inr ⟨by simp [Ne.symm hgoal, hmem], new, h, hnd, fun z hz => ?_, fun z hz => ?_⟩
          · exact ⟨List.mem_cons_of_mem y (hnew z hz).1, (hnew z hz).2⟩
          · rcases List.mem_cons.mp hz with rfl | hz
            · exact .inr hseen
            · exact hall z hz
      · have hscan : scan goal n (y :: ys) queue seen = scan goal n ys (queue ++ [(y, n)]) (y :: seen) := by
          simp [scan, hgoal, hseen]
        rw [hscan]
        rcases ih (queue ++ [(y, n)]) (y :: seen) with ⟨hmem, h⟩ | ⟨hmem, new, h, hnd, hnew, hall⟩
        · exact .inl ⟨List.mem_cons_of_mem y hmem, h⟩
        · refine .inr ⟨by simp [Ne.symm hgoal, hmem], y :: new, by simp [h], ?_, fun z hz => ?_, fun z hz => ?_⟩
          · exact List.nodup_cons.mpr ⟨fun hy => (hnew y hy).2 List.mem_cons_self, hnd⟩
          · rcases List.mem_cons.mp hz with rfl | hz
            · exact ⟨List.mem_cons_self, hseen⟩
            · exact ⟨List.mem_cons_of_mem y (hnew z hz).1, fun h => (hnew z hz).2 (List.mem_cons_of_mem y h)⟩
          · rcases List.mem_cons.mp hz with rfl | hz
            · exact .inl List.mem_cons_self
            · have := hall z hz
              simp only [List.mem_cons] at this ⊢
              tauto

/-- **The search** from any round on. `U` is a list of all places that there are. -/
theorem Layers.search (h : Layers next base start goal done queue seen) (hne : start ≠ goal)
    (hclosed : ∀ x ∈ U, ∀ y ∈ next x, y ∈ U) (hqueue : ∀ p ∈ queue, p.1 ∈ U) (hnd : seen.Nodup)
    (hseen : ∀ y ∈ seen, y ∈ U) (hfuel : queue.length + (U.length - seen.length) < fuel) :
    ∃ r, search next goal fuel queue seen = some r ∧ Least (fun x y => y ∈ next x) base start goal r := by
  induction fuel generalizing done queue seen with
  | zero => exact absurd hfuel (Nat.not_lt_zero _)
  | succ fuel ih =>
      rcases queue with _ | ⟨⟨x, n⟩, queue⟩
      · exact ⟨none, rfl, fun n hn => (h.found hne hn (by simp)).1 rfl⟩
      have hx : x ∈ U := hqueue _ List.mem_cons_self
      rcases scan_cases goal (n + 1) (next x) queue seen with ⟨hgoal, hscan⟩ | ⟨hgoal, new, hscan, hnew, hin, hall⟩
      · refine ⟨some (n + 1), by simp [Breadth.search, hscan], ?_, fun m hm => ?_⟩
        · exact (h.reach _ List.mem_cons_self).step hgoal
        · by_contra hlt
          have hmn : m ≤ n := by omega
          exact (h.found hne hm fun p hp => hmn.trans (h.head_le p hp)).1 rfl
      · have hadd : (new.reverse ++ seen).Nodup := by
          refine List.nodup_append.mpr ⟨List.nodup_reverse.mpr hnew, hnd, ?_⟩
          rintro y hy z hz rfl
          exact (hin y (List.mem_reverse.mp hy)).2 hz
        have hsub : ∀ y ∈ new.reverse ++ seen, y ∈ U := by
          intro y hy
          rcases List.mem_append.mp hy with hy | hy
          · exact hclosed x hx y (hin y (List.mem_reverse.mp hy)).1
          · exact hseen y hy
        have hlen := (List.subperm_of_subset hadd hsub).length_le
        have hround : Breadth.search next goal (fuel + 1) ((x, n) :: queue) seen =
            Breadth.search next goal fuel (queue ++ new.map fun y => (y, n + 1)) (new.reverse ++ seen) := by
          simp [Breadth.search, hscan]
        rw [hround]
        refine ih (h.step hgoal (fun y hy => (hin y hy).1) hall) (fun p hp => ?_) hadd hsub ?_
        · rcases List.mem_append.mp hp with hp | hp
          · exact hqueue p (List.mem_cons_of_mem _ hp)
          · obtain ⟨y, hy, rfl⟩ := List.mem_map.mp hp
            exact hclosed x hx y (hin y hy).1
        · simp only [List.length_append, List.length_map, List.length_reverse, List.length_cons] at hlen hfuel ⊢
          omega

/-- **The number that is found** is the least one of the goal. The start may be among the places already seen. -/
theorem search_least (hne : start ≠ goal) (hclosed : ∀ x ∈ U, ∀ y ∈ next x, y ∈ U) (hstart : start ∈ U)
    (hseen : seen.Sublist [start]) (hfuel : U.length + 1 < fuel) :
    ∃ r, search next goal fuel [(start, base)] seen = some r ∧
      Least (fun x y => y ∈ next x) base start goal r := by
  have hmem : ∀ y ∈ seen, y = start := fun y hy => List.mem_singleton.mp (hseen.subset hy)
  have hlayers : Layers next base start goal [] [(start, base)] seen := by
    refine ⟨?_, List.pairwise_singleton _ _, ?_, ?_, List.mem_singleton_self _, ?_, fun y hy => ?_⟩
    · rintro p hp
      rw [List.mem_singleton.mp hp]
      exact .start
    · simp
    · simp
    · simp
    · rw [hmem y hy]
      exact ⟨base, List.mem_singleton_self _⟩
  refine hlayers.search hne hclosed (by simpa using hstart) (hseen.nodup (List.nodup_singleton _)) ?_ ?_
  · intro y hy
    rw [hmem y hy]
    exact hstart
  · simp only [List.length_singleton]
    omega

end Asenal.Lib.Breadth
