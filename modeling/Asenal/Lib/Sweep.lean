import Mathlib.Data.List.Basic

/-!
# In-place sweeps over a sequence

The loop shape `for (i = 0; i < v.size(); i++)` whose body either erases `v[i]` and steps the
index back, or overwrites `v[i]` and goes on. `sweep step xs i` runs it from index `i`, where
`step a = none` means "erase" and `step a = some b` means "overwrite with `b`"; it also counts
the erasures. `sweep_zero` says what the loop is for: it filters and maps every element exactly
once, although the indices shift under it.
-/

namespace Asenal.Lib.Sweep

variable {α : Type*}

/-- Run the sweep from index `i`: the number of erasures and the resulting sequence. -/
def sweep (step : α → Option α) (xs : List α) (i : ℕ) : ℕ × List α :=
  if h : i < xs.length then
    match step xs[i] with
    | none =>
        -- erase, step the index back, and let the loop header advance it again
        let r := sweep step (xs.eraseIdx i) i
        (r.1 + 1, r.2)
    | some a => sweep step (xs.set i a) (i + 1)
  else (0, xs)
termination_by xs.length - i
decreasing_by
  · rw [List.length_eraseIdx_of_lt h]
    omega
  · rw [List.length_set]
    omega

/-- From the boundary of a processed prefix, the sweep processes the remaining elements. -/
theorem sweep_append (step : α → Option α) (pre rest : List α) :
    sweep step (pre ++ rest) pre.length =
      (rest.countP fun a => (step a).isNone, pre ++ rest.filterMap step) := by
  induction rest generalizing pre with
  | nil =>
      rw [sweep]
      simp
  | cons a rest ih =>
      rw [sweep, dif_pos (by simp), List.getElem_append_right (Nat.le_refl _)]
      simp only [Nat.sub_self, List.getElem_cons_zero]
      cases h : step a with
      | none =>
          have herase : (pre ++ a :: rest).eraseIdx pre.length = pre ++ rest := by
            rw [List.eraseIdx_append_of_length_le (Nat.le_refl _), Nat.sub_self,
              List.eraseIdx_cons_zero]
          simp only [herase, ih pre, List.filterMap_cons_none h]
          simp [h]
      | some b =>
          have hset : (pre ++ a :: rest).set pre.length b = (pre ++ [b]) ++ rest := by
            rw [List.set_append_right _ _ (Nat.le_refl _), Nat.sub_self, List.set_cons_zero]
            simp
          have hlen : pre.length + 1 = (pre ++ [b]).length := by simp
          simp only [hset, hlen, ih (pre ++ [b]), List.filterMap_cons_some h]
          simp [h]

/-- A whole sweep maps and filters, and counts the elements it erased. -/
theorem sweep_zero (step : α → Option α) (xs : List α) :
    sweep step xs 0 = (xs.countP fun a => (step a).isNone, xs.filterMap step) :=
  sweep_append step [] xs

end Asenal.Lib.Sweep
