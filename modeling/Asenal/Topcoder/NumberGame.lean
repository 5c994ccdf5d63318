import Mathlib.Data.List.Sublists
import Mathlib.Data.Int.Notation
import Asenal.Lib.Breadth
import Asenal.Lib.CString

/-!
# Shortening and reversing a string of digits

`bfs` looks for the least number of moves that turn one string into another one, where a move drops the last
digit or reverses the string. Strings that have become too short are not looked at.

* `bfsLoop_eq` — the loop is a breadth-first search.
* `reach_next_iff` — the strings that are not looked at are on no way to the goal.
* `bfs_spec` — what is returned.
-/

namespace Asenal.Topcoder

open Asenal.Lib.Text Asenal.Lib.CString Asenal.Lib.Breadth

/-! ## The program -/

/-- The steps that follow a move to `str`; an error is what `bfs` returns. Source: `TheNumberGameDiv2.cpp` `bfs`,
each half of the loop's body. -/
def tryMove (strB str : Bytes) (len : ℕ) (q : List (Bytes × ℕ)) (st : List Bytes) :
    Except ℕ (List (Bytes × ℕ) × List Bytes) :=
  if cstr str = cstr strB then .error (len + 1)
  else if st.contains str then .ok (q, st)
  else .ok (q ++ [(str, len + 1)], str :: st)

/-- The loop, with `fuel` rounds at most. Source: `TheNumberGameDiv2.cpp` `bfs`. -/
def bfsLoop (strB : Bytes) : ℕ → List (Bytes × ℕ) → List Bytes → Option ℤ
  | 0, _, _ => none
  | _ + 1, [], _ => some (-1)
  | fuel + 1, (str, len) :: q, st =>
      if str.length < strB.length then bfsLoop strB fuel q st
      else
        match (tryMove strB str.dropLast len q st).bind fun p => tryMove strB str.reverse len p.1 p.2 with
        | .error len => some len
        | .ok (q, st) => bfsLoop strB fuel q st

/-- Source: `TheNumberGameDiv2.cpp` `bfs`. -/
def bfs (fuel : ℕ) (strA strB : Bytes) : Option ℤ := bfsLoop strB fuel [(strA, 0)] [strA]

/-! ## Moves -/

/-- A move drops the last digit, or reverses the string. -/
def Move (x y : Bytes) : Prop := (x ≠ [] ∧ y = x.dropLast) ∨ y = x.reverse

/-- The least number of moves from one string to another one, or `-1` if there are none. -/
def LeastMoves (strA strB : Bytes) (res : ℤ) : Prop :=
  (∃ n : ℕ, res = n ∧ IsLeast {n | Reach Move 0 strA n strB} n) ∨
    (res = -1 ∧ ∀ n, ¬ Reach Move 0 strA n strB)

/-- The strings that are looked at behind `x`. -/
def nextStrings (strB x : Bytes) : List Bytes :=
  if x.length < strB.length then [] else [x.dropLast, x.reverse]

/-- What `bfs` returns for what a search has found. -/
def moves : Option ℕ → ℤ
  | none => -1
  | some n => n

variable {strA strB str x y : Bytes} {q : List (Bytes × ℕ)} {st : List Bytes} {n len fuel : ℕ}

theorem tryMove_eq (hstr : 0 ∉ str) (hB : 0 ∉ strB) : tryMove strB str len q st = scan strB (len + 1) [str] q st := by
  rw [tryMove, cstr_of_not_mem hstr, cstr_of_not_mem hB]
  by_cases heq : str = strB
  · simp [scan, heq]
  · by_cases hmem : str ∈ st <;> simp [scan, heq, hmem]

/-- A string of the next ones has the bytes of the string before. -/
theorem subset_of_mem_nextStrings (h : y ∈ nextStrings strB x) : y ⊆ x := by
  rw [nextStrings] at h
  split_ifs at h
  · exact absurd h List.not_mem_nil
  · rcases List.mem_pair.mp h with rfl | rfl
    · exact List.dropLast_subset x
    · exact (List.reverse_perm x).subset

/-- The loop's body looks through the next strings. -/
theorem bfsLoop_cons (hstr : 0 ∉ str) (hB : 0 ∉ strB) : bfsLoop strB (fuel + 1) ((str, len) :: q) st =
    match scan strB (len + 1) (nextStrings strB str) q st with
    | .error len => some (len : ℤ)
    | .ok (q, st) => bfsLoop strB fuel q st := by
  rw [bfsLoop, nextStrings]
  split_ifs with hshort
  · rfl
  · have hdrop : 0 ∉ str.dropLast := fun h => hstr (List.dropLast_subset str h)
    have hreverse : 0 ∉ str.reverse := fun h => hstr (List.mem_reverse.mp h)
    simp only [tryMove_eq hdrop hB, tryMove_eq hreverse hB, scan_cons strB (len + 1) str.dropLast [str.reverse]]

/-- **The loop** is a breadth-first search. -/
theorem bfsLoop_eq (hB : 0 ∉ strB) (hq : ∀ p ∈ q, 0 ∉ p.1) :
    bfsLoop strB fuel q st = (search (nextStrings strB) strB fuel q st).map moves := by
  induction fuel generalizing q st with
  | zero => rfl
  | succ fuel ih =>
      rcases q with _ | ⟨⟨str, len⟩, q⟩
      · rfl
      obtain ⟨hstr, hq⟩ := List.forall_mem_cons.mp hq
      rw [bfsLoop_cons hstr hB, search]
      rcases scan_cases strB (len + 1) (nextStrings strB str) q st with ⟨-, h⟩ | ⟨-, new, h, -, hnew, -⟩
      · simp [h, moves]
      · simp only [h]
        refine ih fun p hp => ?_
        rcases List.mem_append.mp hp with hp | hp
        · exact hq p hp
        · obtain ⟨y, hy, rfl⟩ := List.mem_map.mp hp
          exact fun h => hstr (subset_of_mem_nextStrings (hnew y hy).1 h)

/-! ## What is not looked at -/

/-- A move never makes a string longer. -/
theorem Move.length_le (h : Move x y) : y.length ≤ x.length := by
  rcases h with ⟨-, rfl⟩ | rfl
  · simp
  · simp

/-- **The strings that are too short** are on no way to the goal. -/
theorem reach_next_iff (hB : strB ≠ []) :
    Reach (fun x y => y ∈ nextStrings strB x) 0 strA n strB ↔ Reach Move 0 strA n strB := by
  constructor
  · refine Reach.mono fun {x y} hy => ?_
    rw [nextStrings] at hy
    split_ifs at hy with hshort
    · exact absurd hy List.not_mem_nil
    · rcases List.mem_pair.mp hy with rfl | rfl
      · refine .inl ⟨?_, rfl⟩
        rintro rfl
        exact hshort (List.length_pos_iff.mpr hB)
      · exact .inr rfl
  · suffices ∀ {n y}, Reach Move 0 strA n y → strB.length ≤ y.length →
        Reach (fun x y => y ∈ nextStrings strB x) 0 strA n y from fun h => this h (le_refl _)
    intro n y hy hlen
    induction hy with
    | start => exact .start
    | @step n x y _ hxy ih =>
        have hx : strB.length ≤ x.length := hlen.trans hxy.length_le
        refine (ih hx).step ?_
        rw [nextStrings, if_neg (not_lt.mpr hx)]
        rcases hxy with ⟨-, rfl⟩ | rfl <;> simp

/-- All strings that there are. -/
def parts (strA : Bytes) : List Bytes := strA.sublists ++ strA.reverse.sublists

theorem mem_parts : x ∈ parts strA ↔ x.Sublist strA ∨ x.Sublist strA.reverse := by
  simp [parts]

theorem mem_parts_of_mem_nextStrings (hx : x ∈ parts strA) (hy : y ∈ nextStrings strB x) : y ∈ parts strA := by
  rw [nextStrings] at hy
  split_ifs at hy
  · exact absurd hy List.not_mem_nil
  rw [mem_parts] at hx ⊢
  rcases List.mem_pair.mp hy with rfl | rfl
  · exact hx.imp (List.dropLast_sublist x).trans (List.dropLast_sublist x).trans
  · rcases hx with hx | hx
    · exact .inr hx.reverse
    · left
      have := hx.reverse
      rwa [List.reverse_reverse] at this

/-! ## The result -/

/-- **What is returned** for two different strings of digits. -/
theorem bfs_spec (strA strB : Bytes) (hA : ∀ b ∈ strA, isDigit b = true) (hB : ∀ b ∈ strB, isDigit b = true)
    (hneB : strB ≠ []) (hne : strA ≠ strB) :
    ∃ N, ∀ fuel ≥ N, ∃ res, bfs fuel strA strB = some res ∧ LeastMoves strA strB res := by
  have hnul : ∀ {s : Bytes}, (∀ b ∈ s, isDigit b = true) → 0 ∉ s := fun h h0 => absurd (h 0 h0) (by decide)
  refine ⟨(parts strA).length + 2, fun fuel hfuel => ?_⟩
  obtain ⟨o, hsearch, hleast⟩ : ∃ o, search (nextStrings strB) strB fuel [(strA, 0)] [strA] = some o ∧
      Least (fun x y => y ∈ nextStrings strB x) 0 strA strB o :=
    search_least hne (fun x hx y hy => mem_parts_of_mem_nextStrings hx hy)
      (mem_parts.mpr (.inl (List.Sublist.refl strA))) (List.Sublist.refl [strA]) hfuel
  refine ⟨moves o, ?_, ?_⟩
  · rw [bfs, bfsLoop_eq (hnul hB) (by simpa using hnul hA), hsearch]
    rfl
  · rw [Least.congr fun n => reach_next_iff hneB] at hleast
    cases o with
    | none => exact .inr ⟨rfl, hleast⟩
    | some n => exact .inl ⟨n, rfl, hleast⟩

/-- From `12` to `2`: reverse, and drop the last digit. -/
theorem bfs_spec_two : (∃ N, ∀ fuel ≥ N, ∃ res, bfs fuel [49, 50] [50] = some res ∧ LeastMoves [49, 50] [50] res) ∧
    bfs 4 [49, 50] [50] = some 2 :=
  ⟨bfs_spec [49, 50] [50] (by decide +kernel) (by decide +kernel) (by simp) (by simp), by decide +kernel⟩

end Asenal.Topcoder
