import Asenal.Lib.Memory
import Asenal.Lib.Text

/-!
# Accesses that are checked

An array of `size` cells is a memory; an access to a place outside of it fails. A size that is kept as an
`int` is the size as long as that fits.
-/

namespace Asenal.Lib.Checked

open Asenal.Lib.Text Asenal.Lib.Memory

variable {α : Type*}

/-- The cell at a place of an array of `size` cells. -/
def readAt (size : ℕ) (m : Mem α) (k : ℤ) : Option α := if 0 ≤ k ∧ k < size then some (m k.toNat) else none

/-- Set the cell at a place of an array of `size` cells. -/
def writeAt (size : ℕ) (m : Mem α) (j : ℕ) (a : α) : Option (Mem α) :=
  if j < size then some (Function.update m j a) else none

/-- A byte of a string or its terminator. -/
def byteAt (s : Bytes) (k : ℤ) : Option UInt8 := if 0 ≤ k then (s ++ [0])[k.toNat]? else none

/-- A size as an `int`. -/
def intOf (n : ℕ) : ℤ := (Int32.ofNat n).toInt

/-- A result that is an `int`. -/
def checkInt (x : ℤ) : Option ℤ := if -2 ^ 31 ≤ x ∧ x < 2 ^ 31 then some x else none

variable {size k n : ℕ} {x : ℤ} {m : Mem α} {s : Bytes}

/-- A cell of the array is read. -/
theorem readAt_of_lt (h : k < size) : readAt size m k = some (m k) := by
  simp [readAt, h]

/-- A cell of the array is written. -/
theorem writeAt_of_lt (h : k < size) (a : α) : writeAt size m k a = some (Function.update m k a) := if_pos h

/-- A byte in front of the end is read. -/
theorem byteAt_of_lt (h : k < s.length) : byteAt s k = some s[k] := by
  simp [byteAt, List.getElem?_append_left h, List.getElem?_eq_getElem h]

/-- **A loop** over the numbers below `n` ends if each round does, and keeps what each round keeps. -/
theorem foldlM_range {σ : Type*} {f : σ → ℕ → Option σ} {P : ℕ → σ → Prop} {s : σ} (hstart : P 0 s)
    (hround : ∀ k < n, ∀ s, P k s → ∃ s', f s k = some s' ∧ P (k + 1) s') :
    ∃ s', (List.range n).foldlM f s = some s' ∧ P n s' := by
  induction n with
  | zero => exact ⟨s, rfl, hstart⟩
  | succ n ih =>
      obtain ⟨s', hloop, hs'⟩ := ih fun k hk => hround k (Nat.lt_succ_of_lt hk)
      obtain ⟨s'', hlast, hs''⟩ := hround n (Nat.lt_succ_self n) s' hs'
      refine ⟨s'', ?_, hs''⟩
      rw [List.range_succ, List.foldlM_append, hloop]
      simpa using hlast

/-- No number becomes larger as an `int`. -/
theorem intOf_le (n : ℕ) : intOf n ≤ n := by
  rw [intOf, Int32.toInt_ofNat']
  unfold Int.bmod Int32.size
  dsimp only
  split_ifs <;> omega

/-- A size that is no `int` and counts as a positive one. -/
theorem lt_of_intOf_pos (h : 0 < intOf n) (hn : 2 ^ 31 ≤ n) : 2 ^ 32 < n := by
  rw [intOf, Int32.toInt_ofNat'] at h
  unfold Int.bmod Int32.size at h
  dsimp only at h
  split_ifs at h <;> omega

/-- A number in the range of `int` is kept. -/
theorem checkInt_of_lt (h : 0 ≤ x) (hx : x < 2 ^ 31) : checkInt x = some x := if_pos ⟨by omega, hx⟩

/-- What is kept is the number itself. -/
theorem eq_of_checkInt {y : ℤ} (h : checkInt x = some y) : x = y := by
  rw [checkInt] at h
  split_ifs at h
  exact Option.some.inj h

/-- From 2^31 on a number is no `int`. -/
theorem checkInt_of_le (h : 2 ^ 31 ≤ x) : checkInt x = none := if_neg (by omega)

/-- Below 2^31 a number is the same as an `int`. -/
theorem intOf_of_lt (h : n < 2 ^ 31) : intOf n = n := Int32.toInt_ofNat_of_lt h

end Asenal.Lib.Checked
