import Asenal.Lib.Border
import Asenal.Lib.Checked

/-!
# The table of borders

`getnext` has two cursors. The one behind either goes on with the one in front, or falls back through the
table that is being filled.

* `Filling.step` — one round of the loop.
* `getnext_spec` — the table.
-/

namespace Asenal.Acm

open Asenal.Lib.Text Asenal.Lib.Memory Asenal.Lib.Checked Asenal.Lib.Border

/-! ## The program -/

/-- The table; `none` where the loop leaves the string or the table, or does not end. Source: `astar.cpp`
`getnext`, the loop. -/
def getnextLoop (s : Bytes) : ℕ → Mem ℤ → ℤ → ℕ → Option (Mem ℤ)
  | 0, _, _, _ => none
  | fuel + 1, next, k, j =>
      if j < s.length then
        if k = -1 then
          (writeAt (s.length + 1) next (j + 1) (k + 1)).bind fun next => getnextLoop s fuel next (k + 1) (j + 1)
        else
          (byteAt s k).bind fun c => (byteAt s j).bind fun d =>
            if c = d then
              (writeAt (s.length + 1) next (j + 1) (k + 1)).bind fun next =>
                getnextLoop s fuel next (k + 1) (j + 1)
            else (readAt (s.length + 1) next k).bind fun k => getnextLoop s fuel next k j
      else some next

/-- Source: `astar.cpp` `getnext`. -/
def getnext (fuel : ℕ) (s : Bytes) (next : Mem ℤ) : Option (Mem ℤ) :=
  (writeAt (s.length + 1) next 0 (-1)).bind fun next => getnextLoop s fuel next (-1) 0

/-! ## The loop -/

variable {s : Bytes} {next : Mem ℤ} {k : ℤ} {j fuel : ℕ}

/-- The entries up to `j` are the longest borders, and `k` is the next candidate for a border of `j` that
goes on: no longer one does. -/
structure Filling (s : Bytes) (next : Mem ℤ) (k : ℤ) (j : ℕ) : Prop where
  le_length : j ≤ s.length
  first : next 0 = -1
  entry : ∀ i, i + 1 ≤ j → next (i + 1) = border s (i + 1)
  candidate : k = -1 ∨ ∃ m, k = (m : ℕ) ∧ m ∈ borders s j
  bound : ∀ m ∈ borders s j, s[m]? = s[j]? → (m : ℤ) ≤ k

/-- **The candidate goes on**, or there is none: the next entry is the longest border. -/
theorem Filling.advance (h : Filling s next k j) (hj : j < s.length)
    (hk : k = -1 ∨ ∃ m, k = (m : ℕ) ∧ s[m]? = s[j]?) :
    Filling s (Function.update next (j + 1) (k + 1)) (k + 1) (j + 1) := by
  have hgreatest : ∃ m : ℕ, k + 1 = m ∧ IsGreatest (borders s (j + 1)) m := by
    have hmax : ∀ m ∈ borders s (j + 1), (m : ℤ) ≤ k + 1 := by
      intro m hm
      cases m with
      | zero => rcases h.candidate with rfl | ⟨m, rfl, -⟩ <;> omega
      | succ m =>
          rw [succ_mem_borders hj] at hm
          have := h.bound m hm.1 hm.2
          omega
    rcases h.candidate with rfl | ⟨m, rfl, hm⟩
    · exact ⟨0, rfl, zero_mem_borders j, fun m hm => by simpa using hmax m hm⟩
    · refine ⟨m + 1, rfl, (succ_mem_borders hj).mpr ⟨hm, ?_⟩, fun m' hm' => by exact_mod_cast hmax m' hm'⟩
      rcases hk with hnone | ⟨m', heq, hget⟩
      · omega
      · rwa [Int.ofNat_inj.mp heq]
  obtain ⟨m, hm, hborder⟩ := hgreatest
  have hlongest : border s (j + 1) = m := (isGreatest_border s j).unique hborder
  refine ⟨hj, ?_, fun i hi => ?_, Or.inr ⟨m, hm, hborder.1⟩, fun m' hm' _ => ?_⟩
  · rw [Function.update_of_ne (Nat.succ_ne_zero j).symm]
    exact h.first
  · by_cases hij : i = j
    · rw [hij, Function.update_self, hm, hlongest]
    · rw [Function.update_of_ne (by omega)]
      exact h.entry i (by omega)
  · rw [hm]
    exact_mod_cast hborder.2 hm'

/-- **The candidate does not go on**: the next one is its longest border. -/
theorem Filling.fallBack {m : ℕ} (h : Filling s next m j) (hget : s[m]? ≠ s[j]?) :
    Filling s next (next m) j := by
  obtain ⟨m', heq, hm⟩ := h.candidate.resolve_left (by omega)
  obtain rfl := Int.ofNat_inj.mp heq
  have hne : ∀ m' ∈ borders s j, s[m']? = s[j]? → m' < m := fun m' hm' hget' =>
    lt_of_le_of_ne (by exact_mod_cast h.bound m' hm' hget') fun heq => hget (heq ▸ hget')
  cases m with
  | zero =>
      refine ⟨h.le_length, h.first, h.entry, Or.inl h.first, fun m' hm' hget' => ?_⟩
      exact absurd (hne m' hm' hget') (Nat.not_lt_zero m')
  | succ m =>
      have hentry := h.entry m (hm.1.le)
      obtain ⟨hmem, hmax⟩ := isGreatest_border s m
      refine ⟨h.le_length, h.first, h.entry, Or.inr ⟨_, hentry, mem_borders_trans hmem hm⟩, fun m' hm' hget' => ?_⟩
      rw [hentry]
      exact_mod_cast hmax (mem_borders_of_lt hm' hm (hne m' hm' hget'))

/-- **The loop**: twice the characters that are left and the place of the candidate become fewer in each
round. -/
theorem getnextLoop_spec (h : Filling s next k j) (hfuel : 2 * (s.length - j : ℤ) + k + 1 < fuel) :
    ∃ next', getnextLoop s fuel next k j = some next' ∧ (∃ k', Filling s next' k' s.length) ∧
      ∀ i, s.length < i → next' i = next i := by
  have hj := h.le_length
  have hlow : -1 ≤ k := by rcases h.candidate with rfl | ⟨m, rfl, -⟩ <;> omega
  induction fuel generalizing next k j with
  | zero => omega
  | succ fuel ih =>
      rw [getnextLoop]
      by_cases hlt : j < s.length
      · have hadvance : k = -1 ∨ (∃ m, k = (m : ℕ) ∧ s[m]? = s[j]?) →
            ∃ next', ((writeAt (s.length + 1) next (j + 1) (k + 1)).bind fun next =>
              getnextLoop s fuel next (k + 1) (j + 1)) = some next' ∧
              (∃ k', Filling s next' k' s.length) ∧ ∀ i, s.length < i → next' i = next i := by
          intro hk
          obtain ⟨next', hloop, hfilled, hrest⟩ :=
            ih (h.advance hlt hk) (by push_cast at hfuel ⊢; omega) hlt (by omega)
          rw [writeAt_of_lt (Nat.succ_lt_succ hlt), Option.bind_some]
          refine ⟨next', hloop, hfilled, fun i hi => ?_⟩
          rw [hrest i hi, Function.update_of_ne (by omega)]
        rw [if_pos hlt]
        by_cases hnone : k = -1
        · rw [if_pos hnone]
          exact hadvance (Or.inl hnone)
        · obtain ⟨m, rfl, hm⟩ := h.candidate.resolve_left hnone
          have hlt' : m < s.length := hm.1.trans hlt
          rw [if_neg hnone, byteAt_of_lt hlt', byteAt_of_lt hlt, Option.bind_some, Option.bind_some]
          by_cases hget : s[m] = s[j]
          · rw [if_pos hget]
            refine hadvance (Or.inr ⟨m, rfl, ?_⟩)
            rw [List.getElem?_eq_getElem hlt', List.getElem?_eq_getElem hlt, hget]
          · have hfall := h.fallBack (m := m) fun heq => hget (by
              rwa [List.getElem?_eq_getElem hlt', List.getElem?_eq_getElem hlt, Option.some.injEq] at heq)
            have hless : next m < m ∧ -1 ≤ next m := by
              cases m with
              | zero => simp [h.first]
              | succ m =>
                  have hmem := (isGreatest_border s m).1.1
                  rw [h.entry m hm.1.le]
                  omega
            rw [if_neg hget, readAt_of_lt (hm.1.trans (Nat.lt_succ_of_lt hlt)), Option.bind_some]
            exact ih hfall (by omega) hj hless.2
      · rw [if_neg hlt]
        obtain rfl : j = s.length := by omega
        exact ⟨next, rfl, ⟨k, h⟩, fun _ _ => rfl⟩

/-- **The table**: the loop ends, within the string and the first `len + 1` entries, and each entry behind
the first one is the length of the longest prefix that is shorter and a suffix. -/
theorem getnext_spec (s : Bytes) (next : Mem ℤ) : ∃ next', (∀ fuel, 2 * s.length < fuel →
    getnext fuel s next = some next') ∧ next' 0 = -1 ∧
    (∀ i, 1 ≤ i → i ≤ s.length → ∃ k : ℕ, next' i = k ∧
      IsGreatest {k | k < i ∧ s.take k <:+ s.take i} k) ∧
    ∀ i, s.length < i → next' i = next i := by
  refine ⟨fun i => if i = 0 then -1 else if i ≤ s.length then border s i else next i,
    fun fuel hfuel => ?_, rfl, fun i hi hle => ?_, fun i hi => ?_⟩
  · have hstart : Filling s (Function.update next 0 (-1)) (-1) 0 := by
      refine ⟨Nat.zero_le _, Function.update_self .., fun i hi => absurd hi (Nat.not_succ_le_zero i),
        Or.inl rfl, fun m hm => ?_⟩
      rw [borders_zero] at hm
      exact absurd hm (Set.notMem_empty m)
    have hrounds : 2 * (s.length - (0 : ℕ) : ℤ) + -1 + 1 < fuel := by
      push_cast
      omega
    obtain ⟨next', hloop, ⟨k, hfilled⟩, hrest⟩ := getnextLoop_spec hstart hrounds
    rw [getnext, writeAt_of_lt (Nat.succ_pos _), Option.bind_some, hloop, Option.some.injEq]
    funext i
    cases i with
    | zero => exact hfilled.first
    | succ i =>
        by_cases hi : i + 1 ≤ s.length
        · simp [hi, hfilled.entry i hi]
        · simp [hi, hrest (i + 1) (not_le.mp hi)]
  · obtain ⟨i, rfl⟩ := Nat.exists_eq_succ_of_ne_zero (Nat.ne_of_gt hi)
    exact ⟨border s (i + 1), by simp [hle], isGreatest_border s i⟩
  · simp [Nat.ne_of_gt (Nat.zero_lt_of_lt hi), not_le.mpr hi]

end Asenal.Acm
