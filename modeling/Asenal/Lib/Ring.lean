import Asenal.Lib.Memory
import Mathlib.Data.Nat.ModEq

/-!
# Rings in memory

The first `len` cells of a memory as a ring: behind the last cell comes the first one. `ring` reads
cells from a position on and `pokeRing` writes them, in two pieces where they go past the end.
Nothing here knows what the ring is for: a byte queue writes whole runs of cells behind its contents,
and a queue of records writes one cell at either end of them.

* `ring_add`, `ring_mod` — where cells are read.
* `pokeRing_apply` — which cells a write changes.
* `ring_pokeRing` — a write behind the contents of a queue appends to them.
* `ring_update_front`, `ring_update_back` — a write of one cell at either end of the contents.
-/

namespace Asenal.Lib.Ring

open Asenal.Lib.Memory

variable {α : Type*} {m m' : Mem α} {len pos n : ℕ}

/-! ## Reading -/

/-- The `n` cells from the position `pos` on, in a ring of `len` cells. -/
def ring (m : Mem α) (len pos n : ℕ) : List α := (List.range n).map fun i => m ((pos + i) % len)

@[simp] theorem length_ring (m : Mem α) (len pos n : ℕ) : (ring m len pos n).length = n := by
  simp [ring]

@[simp] theorem ring_zero (m : Mem α) (len pos : ℕ) : ring m len pos 0 = [] := rfl

/-- Reading two neighbouring runs is reading one. -/
theorem ring_add (m : Mem α) (len pos a b : ℕ) :
    ring m len pos (a + b) = ring m len pos a ++ ring m len (pos + a) b := by
  simp [ring, List.range_add, Nat.add_assoc]

/-- A position counts from the beginning of the ring again. -/
theorem ring_mod (m : Mem α) (len pos n : ℕ) : ring m len (pos % len) n = ring m len pos n := by
  unfold ring
  simp only [Nat.mod_add_mod]

/-- One cell and those behind it. -/
theorem ring_succ (m : Mem α) (len pos n : ℕ) :
    ring m len pos (n + 1) = m (pos % len) :: ring m len (pos + 1) n := by
  rw [Nat.add_comm n 1, ring_add]
  rfl

/-- The cells and one behind them. -/
theorem ring_succ_last (m : Mem α) (len pos n : ℕ) :
    ring m len pos (n + 1) = ring m len pos n ++ [m ((pos + n) % len)] := by
  rw [ring_add]
  rfl

/-- Memories that agree on the cells that are read give the same cells. -/
theorem ring_congr (h : ∀ i < n, m ((pos + i) % len) = m' ((pos + i) % len)) :
    ring m len pos n = ring m' len pos n := by
  apply List.map_congr_left
  intro i hi
  exact h i (List.mem_range.mp hi)

/-- Cells in front of the end of the ring are read in one piece. -/
theorem ring_eq_peek (m : Mem α) (h : pos + n ≤ len) : ring m len pos n = peek m pos n := by
  apply List.map_congr_left
  intro i hi
  have hi := List.mem_range.mp hi
  rw [Nat.mod_eq_of_lt (by omega)]

/-- Cells that go past the end of the ring are read in two pieces. -/
theorem ring_eq_peek_append (m : Mem α) (hpos : pos ≤ len) (h : n ≤ len) :
    ring m len pos (len - pos + n) = peek m pos (len - pos) ++ peek m 0 n := by
  have hlast : ring m len (pos + (len - pos)) n = ring m len 0 n := by
    rw [Nat.add_sub_of_le hpos, ← ring_mod, Nat.mod_self]
  rw [ring_add, ring_eq_peek m (by omega), hlast, ring_eq_peek m (by omega)]

/-! ## Where a position stands -/

/-- A position in the ring lies in front of the end, or as far behind the beginning. -/
theorem mod_cases (hpos : pos < len) {i : ℕ} (hi : i < len) :
    (pos + i < len ∧ (pos + i) % len = pos + i) ∨
      (len ≤ pos + i ∧ (pos + i) % len = pos + i - len) := by
  rcases Nat.lt_or_ge (pos + i) len with h | h
  · exact Or.inl ⟨h, Nat.mod_eq_of_lt h⟩
  · refine Or.inr ⟨h, ?_⟩
    rw [Nat.mod_eq_sub_mod h, Nat.mod_eq_of_lt (by omega)]

/-! ## Writing -/

/-- Write the cells `bs` from the position `pos` on; what goes past the end of the ring is written at
its beginning. -/
def pokeRing (m : Mem α) (len pos : ℕ) (bs : List α) : Mem α :=
  if pos + bs.length ≤ len then poke m pos bs
  else poke (poke m pos (bs.take (len - pos))) 0 (bs.drop (len - pos))

/-- Which cells a write changes. -/
theorem pokeRing_apply (m : Mem α) (hpos : pos < len) {bs : List α} (hbs : bs.length ≤ len)
    {i : ℕ} (hi : i < len) :
    pokeRing m len pos bs ((pos + i) % len) = bs.getD i (m ((pos + i) % len)) := by
  unfold pokeRing
  rcases mod_cases hpos hi with ⟨hlt, hmod⟩ | ⟨hge, hmod⟩ <;> rw [hmod]
  · split_ifs with hfit
    · simp [poke]
    · have hout : bs.length - (len - pos) ≤ pos + i := by omega
      have hdrop : (bs.drop (len - pos)).getD (pos + i) (poke m pos (bs.take (len - pos)) (pos + i))
          = poke m pos (bs.take (len - pos)) (pos + i) := by
        rw [List.getD_eq_default]
        simpa using hout
      rw [poke, if_pos (Nat.zero_le _), Nat.sub_zero, hdrop, poke, if_pos (Nat.le_add_right _ _),
        Nat.add_sub_cancel_left]
      simp only [List.getD_eq_getElem?_getD]
      rw [List.getElem?_take_of_lt (by omega)]
  · split_ifs with hfit
    · have hnone : bs.getD i (m (pos + i - len)) = m (pos + i - len) := by
        rw [List.getD_eq_default]
        omega
      rw [hnone, poke, if_neg (by omega)]
    · have hold : poke m pos (bs.take (len - pos)) (pos + i - len) = m (pos + i - len) := by
        rw [poke, if_neg (by omega)]
      rw [poke, if_pos (Nat.zero_le _), Nat.sub_zero, hold]
      simp only [List.getD_eq_getElem?_getD, List.getElem?_drop]
      rw [show len - pos + (pos + i - len) = i by omega]

/-- A write changes nothing behind the ring. -/
theorem pokeRing_of_le (m : Mem α) (hpos : pos ≤ len) {bs : List α} (hbs : bs.length ≤ len) {c : ℕ}
    (hc : len ≤ c) : pokeRing m len pos bs c = m c := by
  unfold pokeRing
  split_ifs with hfit
  · rw [poke, if_pos (by omega), List.getD_eq_default]
    omega
  · have hfirst : poke m pos (bs.take (len - pos)) c = m c := by
      rw [poke, if_pos (by omega), List.getD_eq_default]
      rw [List.length_take]
      omega
    rw [poke, if_pos (Nat.zero_le _), hfirst, List.getD_eq_default]
    rw [List.length_drop]
    omega

/-- **A write behind the contents of a queue** appends to them. -/
theorem ring_pokeRing (m : Mem α) (hlen : 0 < len) (pos n : ℕ) (bs : List α)
    (h : n + bs.length ≤ len) :
    ring (pokeRing m len ((pos + n) % len) bs) len pos (n + bs.length) = ring m len pos n ++ bs := by
  have hend : (pos + n) % len < len := Nat.mod_lt _ hlen
  rw [ring_add]
  congr 1
  · apply ring_congr
    intro i hi
    -- a cell of the contents is reached from their end on by going round the ring
    have hround : (pos + i) % len = ((pos + n) % len + (len - n + i)) % len := by
      rw [Nat.mod_add_mod, show pos + n + (len - n + i) = pos + i + len by omega, Nat.add_mod_right]
    rw [hround, pokeRing_apply m hend (by omega) (by omega), List.getD_eq_default]
    omega
  · rw [← ring_mod]
    apply List.ext_getElem (length_ring _ _ _ _)
    intro i h₁ h₂
    have hcell := pokeRing_apply m hend (show bs.length ≤ len by omega) (show i < len by omega)
    simp only [ring, List.getElem_map, List.getElem_range, hcell]
    rw [List.getD_eq_getElem _ _ h₂]

/-- Cells that are less than a round apart are different. -/
theorem cell_inj {i j : ℕ} (hi : i < len) (hj : j < len) (h : (pos + i) % len = (pos + j) % len) :
    i = j :=
  Nat.ModEq.eq_of_lt_of_lt (Nat.ModEq.add_left_cancel' pos h) hi hj

/-- **A write in front of the contents of a queue** puts one in front of them. -/
theorem ring_update_front (m : Mem α) (hlen : 0 < len) (pos : ℕ) {n : ℕ} (h : n < len) (b : α) :
    ring (Function.update m (pos % len) b) len pos (n + 1) = b :: ring m len (pos + 1) n := by
  rw [ring_succ, Function.update_self]
  congr 1
  apply ring_congr
  intro i hi
  refine Function.update_of_ne ?_ b m
  intro heq
  have hcell := cell_inj (show 1 + i < len by omega) hlen (by rwa [← Nat.add_assoc, Nat.add_zero])
  omega

/-- **A write behind the contents of a queue** puts one behind them. -/
theorem ring_update_back (m : Mem α) (pos : ℕ) {n : ℕ} (h : n < len) (b : α) :
    ring (Function.update m ((pos + n) % len) b) len pos (n + 1) = ring m len pos n ++ [b] := by
  rw [ring_succ_last, Function.update_self]
  congr 1
  apply ring_congr
  intro i hi
  refine Function.update_of_ne ?_ b m
  intro heq
  have hcell := cell_inj (Nat.lt_trans hi h) h heq
  omega

end Asenal.Lib.Ring
