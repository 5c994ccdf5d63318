import Asenal.Lib.Memory
import Mathlib.Data.List.Flatten

/-!
# Records of one size

Records of `size` cells each stand one behind the other, in a file or in memory: `n` of them are the first
`n * size` cells.

* `length_flatMap`, `take_flatMap`, `drop_flatMap` — the cells of some of the records.
* `records_poke` — the records are read back from memory.
-/

namespace Asenal.Lib.Records

open Asenal.Lib.Memory

variable {α ρ : Type*} {size : ℕ} {cells : ρ → List α}

/-- The number of the cells. -/
theorem length_flatMap (hsize : ∀ r, (cells r).length = size) (rs : List ρ) :
    (rs.flatMap cells).length = rs.length * size := by
  induction rs with
  | nil => rw [List.flatMap_nil, List.length_nil, List.length_nil, Nat.zero_mul]
  | cons r rs ih => rw [List.flatMap_cons, List.length_append, hsize, ih, List.length_cons, Nat.succ_mul,
      Nat.add_comm]

/-- The cells of the first records. -/
theorem take_flatMap (hsize : ∀ r, (cells r).length = size) (rs : List ρ) (n : ℕ) :
    (rs.flatMap cells).take (n * size) = (rs.take n).flatMap cells := by
  induction rs generalizing n with
  | nil => rw [List.flatMap_nil, List.take_nil, List.take_nil, List.flatMap_nil]
  | cons r rs ih =>
      cases n with
      | zero => rw [Nat.zero_mul, List.take_zero, List.take_zero, List.flatMap_nil]
      | succ n =>
          rw [List.flatMap_cons, List.take_succ_cons, List.flatMap_cons, Nat.succ_mul, Nat.add_comm,
            ← hsize r, List.take_length_add_append, hsize r, ih]

/-- The cells of the other records. -/
theorem drop_flatMap (hsize : ∀ r, (cells r).length = size) (rs : List ρ) (n : ℕ) :
    (rs.flatMap cells).drop (n * size) = (rs.drop n).flatMap cells := by
  induction rs generalizing n with
  | nil => rw [List.flatMap_nil, List.drop_nil, List.drop_nil, List.flatMap_nil]
  | cons r rs ih =>
      cases n with
      | zero => rw [Nat.zero_mul, List.drop_zero, List.drop_zero]
      | succ n =>
          rw [List.flatMap_cons, List.drop_succ_cons, Nat.succ_mul, Nat.add_comm, ← hsize r,
            List.drop_length_add_append, hsize r, ih]

/-- The records in the memory from `pos` on. -/
def records (of : List α → ρ) (size : ℕ) (m : Mem α) (pos n : ℕ) : List ρ :=
  (List.range n).map fun i => of (peek m (pos + i * size) size)

/-- **Records are read back** where they were written. -/
theorem records_poke {of : List α → ρ} (hsize : ∀ r, (cells r).length = size) (hof : ∀ r, of (cells r) = r)
    (m : Mem α) (pos : ℕ) (rs : List ρ) :
    records of size (poke m pos (rs.flatMap cells)) pos rs.length = rs := by
  induction rs generalizing m pos with
  | nil => rfl
  | cons r rs ih =>
      have hfirst : peek (poke m pos ((r :: rs).flatMap cells)) pos size = cells r := by
        rw [List.flatMap_cons, ← hsize r]
        exact peek_poke_append m pos (cells r) (rs.flatMap cells)
      have hrest : ∀ i, pos + (i + 1) * size = pos + size + i * size := fun i => by
        rw [Nat.succ_mul]
        omega
      rw [records, List.length_cons, List.range_succ_eq_map, List.map_cons, List.map_map, Nat.zero_mul,
        Nat.add_zero, hfirst, hof]
      refine congrArg (r :: ·) (Eq.trans ?_ (ih (poke m pos (cells r)) (pos + size)))
      rw [records]
      apply List.map_congr_left
      intro i _
      rw [Function.comp_apply, Nat.succ_eq_add_one, hrest, List.flatMap_cons, poke_append, hsize]

end Asenal.Lib.Records
