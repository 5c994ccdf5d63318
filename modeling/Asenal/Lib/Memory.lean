import Mathlib.Data.List.Basic
import Mathlib.Data.List.GetD
import Mathlib.Logic.Function.Basic
import Mathlib.Tactic.SplitIfs

/-!
# Memory

A memory is a function from addresses (offsets into a buffer) to cells. `peek` is the run of
cells at an offset and `poke` writes a run of cells (`memcpy`). Nothing here knows how long a
buffer is: the lemmas say which cells a write changes, so that the length of a buffer is a fact
about the offsets a program uses.

* `peek_poke_self` — what was written is read back.
* `peek_poke_before`, `peek_poke_after` — other cells keep their contents.
* `peek_add` — reading two neighbouring runs is reading one.
* `poke_append`, `poke_cons` — writing a run piece by piece.
* `peek_compact` — moving some of the cells to the front.
-/

namespace Asenal.Lib.Memory

variable {α : Type*}

/-- A memory: what each address holds. -/
abbrev Mem (α : Type*) := ℕ → α

/-- The `len` cells at the address `pos`. -/
def peek (m : Mem α) (pos len : ℕ) : List α := (List.range len).map fun i => m (pos + i)

/-- Write the cells `bs` at the address `pos`. -/
def poke (m : Mem α) (pos : ℕ) (bs : List α) : Mem α :=
  fun i => if pos ≤ i then bs.getD (i - pos) (m i) else m i

/-- A memory that holds `bs` from the address `0` on, and `m` behind it. -/
def ofList (bs : List α) (m : Mem α) : Mem α := poke m 0 bs

/-- `len` cells are read. -/
@[simp] theorem length_peek (m : Mem α) (pos len : ℕ) : (peek m pos len).length = len := by
  simp [peek]

/-- One of the cells that are read. -/
theorem getElem_peek (m : Mem α) {pos len i : ℕ} (h : i < (peek m pos len).length) :
    (peek m pos len)[i] = m (pos + i) := by
  simp [peek]

/-- Reading no cell. -/
@[simp] theorem peek_zero (m : Mem α) (pos : ℕ) : peek m pos 0 = [] := rfl

/-- Two neighbouring runs of cells are one. -/
theorem peek_add (m : Mem α) (pos a b : ℕ) :
    peek m pos (a + b) = peek m pos a ++ peek m (pos + a) b := by
  simp [peek, List.range_add, Nat.add_assoc]

/-- Memories that agree on the cells that are read give the same cells. -/
theorem peek_congr {m m' : Mem α} {pos len : ℕ} (h : ∀ i < len, m (pos + i) = m' (pos + i)) :
    peek m pos len = peek m' pos len := by
  apply List.map_congr_left
  intro i hi
  exact h i (List.mem_range.mp hi)

/-- The parts of a run of cells that was read. -/
theorem peek_append {m : Mem α} {pos : ℕ} {a b : List α}
    (h : peek m pos (a ++ b).length = a ++ b) :
    peek m pos a.length = a ∧ peek m (pos + a.length) b.length = b := by
  rw [List.length_append, peek_add] at h
  exact List.append_inj h (length_peek _ _ _)

/-- What was written is read back. -/
@[simp] theorem peek_poke_self (m : Mem α) (pos : ℕ) (bs : List α) :
    peek (poke m pos bs) pos bs.length = bs := by
  apply List.ext_getElem (length_peek _ _ _)
  intro i h₁ h₂
  simp [peek, poke, List.getElem?_eq_getElem h₂]

/-- The first part of what was written is read back. -/
theorem peek_poke_append (m : Mem α) (pos : ℕ) (a b : List α) :
    peek (poke m pos (a ++ b)) pos a.length = a :=
  (peek_append (peek_poke_self m pos (a ++ b))).1

/-- A write leaves the cells before it as they are. -/
theorem peek_poke_before (m : Mem α) {pos len at_ : ℕ} (bs : List α) (h : pos + len ≤ at_) :
    peek (poke m at_ bs) pos len = peek m pos len := by
  apply peek_congr
  intro i hi
  rw [poke, if_neg (by omega)]

/-- A write leaves the cells behind it as they are. -/
theorem peek_poke_after (m : Mem α) {pos len at_ : ℕ} (bs : List α)
    (h : at_ + bs.length ≤ pos) : peek (poke m at_ bs) pos len = peek m pos len := by
  apply peek_congr
  intro i _
  unfold poke
  split_ifs
  · rw [List.getD_eq_getElem?_getD, List.getElem?_eq_none (by omega), Option.getD_none]
  · rfl

/-- A write right behind a run of cells makes it longer. -/
theorem peek_poke_extend (m : Mem α) {pos len at_ : ℕ} (bs : List α) (h : at_ = pos + len) :
    peek (poke m at_ bs) pos (len + bs.length) = peek m pos len ++ bs := by
  rw [h, peek_add, peek_poke_before m bs (Nat.le_refl _), peek_poke_self]

/-- A write right in front of a run of cells makes it longer. -/
theorem peek_poke_front (m : Mem α) (pos len : ℕ) (bs : List α) :
    peek (poke m pos bs) pos (bs.length + len) = bs ++ peek m (pos + bs.length) len := by
  rw [peek_add, peek_poke_self, peek_poke_after m bs (Nat.le_refl _)]

/-- Two neighbouring writes are one. -/
theorem poke_append (m : Mem α) (pos : ℕ) (a b : List α) :
    poke m pos (a ++ b) = poke (poke m pos a) (pos + a.length) b := by
  funext i
  unfold poke
  rcases Nat.lt_or_ge i pos with hbefore | hpos
  · rw [if_neg (by omega), if_neg (by omega), if_neg (by omega)]
  rw [if_pos hpos, if_pos hpos]
  rcases Nat.lt_or_ge i (pos + a.length) with hfirst | hsecond
  · rw [if_neg (by omega), List.getD_append _ _ _ _ (by omega)]
  · rw [if_pos hsecond, List.getD_append_right _ _ _ _ (by omega), Nat.sub_add_eq]
    congr 1
    rw [List.getD_eq_default _ _ (by omega)]

/-- Writing no cell. -/
@[simp] theorem poke_nil (m : Mem α) (pos : ℕ) : poke m pos [] = m := by
  funext i
  simp [poke]

/-- Writing one cell. -/
theorem poke_singleton (m : Mem α) (pos : ℕ) (b : α) : poke m pos [b] = Function.update m pos b := by
  funext i
  unfold poke
  rcases Nat.lt_trichotomy i pos with h | rfl | h
  · rw [if_neg (by omega), Function.update_of_ne (by omega)]
  · rw [if_pos (Nat.le_refl _), Function.update_self, Nat.sub_self]
    rfl
  · rw [if_pos (by omega), Function.update_of_ne (by omega), List.getD_eq_default]
    rw [List.length_singleton]
    omega

/-- One cell is written and then those behind it. -/
theorem poke_cons (m : Mem α) (pos : ℕ) (b : α) (bs : List α) :
    poke m pos (b :: bs) = poke (Function.update m pos b) (pos + 1) bs := by
  have happend := poke_append m pos [b] bs
  rwa [List.singleton_append, poke_singleton, List.length_singleton] at happend

/-- Write one cell behind a run of cells. -/
theorem peek_update_succ (m : Mem α) (pos len : ℕ) (b : α) :
    peek (Function.update m (pos + len) b) pos (len + 1) = peek m pos len ++ [b] := by
  rw [← poke_singleton]
  exact peek_poke_extend m [b] rfl

/-- Write a cell in front of a run of cells. -/
theorem peek_update_before (m : Mem α) {pos len at_ : ℕ} (b : α) (h : at_ < pos) :
    peek (Function.update m at_ b) pos len = peek m pos len :=
  peek_congr fun i _ => Function.update_of_ne (by omega) _ _

/-- The loop that moves the cells to keep to the front: there are `n` more cells from `i` on, and `s` cells
are kept. -/
def compact (keep : α → Bool) : ℕ → ℕ → ℕ → Mem α → Mem α × ℕ
  | 0, _, s, m => (m, s)
  | n + 1, i, s, m =>
      if keep (m i) then compact keep n (i + 1) (s + 1) (Function.update m s (m i))
      else compact keep n (i + 1) s m

/-- The cells that are kept stand behind each other. -/
theorem peek_compact (keep : α → Bool) {n i s : ℕ} (m : Mem α) (h : s ≤ i) :
    peek (compact keep n i s m).1 0 (compact keep n i s m).2 =
      peek m 0 s ++ (peek m i n).filter keep := by
  induction n generalizing i s m with
  | zero => rw [compact, peek_zero, List.filter_nil, List.append_nil]
  | succ n ih =>
      have hcells : peek m i (n + 1) = m i :: peek m (i + 1) n := by
        rw [Nat.add_comm n 1, peek_add]
        rfl
      rw [compact, hcells]
      split_ifs with hkeep
      · have hfront := peek_update_succ m 0 s (m i)
        rw [Nat.zero_add] at hfront
        rw [ih _ (by omega), hfront, peek_update_before m _ (by omega), List.filter_cons_of_pos hkeep,
          List.append_assoc, List.singleton_append]
      · rw [ih _ (by omega), List.filter_cons_of_neg hkeep]

end Asenal.Lib.Memory
