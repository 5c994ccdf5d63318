import Asenal.Lib.Bounded
import Asenal.Lib.CString
import Mathlib.Data.List.DropRight

/-!
# Full paths

`ul_fullpath` joins a directory and a file name with one slash. It takes what `snprintf` returns for a size
although it may be `-1`, which its first branch takes care of by accident.

* `take_lastKept` — the part of the directory that is copied.
* `finish_iff` — what is printed behind it.
* `ulFullpath_iff` — when the joined path is stored or refused as it should be.
-/

namespace Asenal.Ul

open Asenal.Lib.Text Asenal.Lib.CString Asenal.Lib.Memory Asenal.Lib.Bounded

/-! ## The program -/

/-- What `snprintf` returns: the length, or `-1` if that is no `int`. -/
def snprintfRet (t : Bytes) : ℤ := if t.length < 2 ^ 31 then t.length else -1

/-- A number as a `size_t`. -/
def toSize (n : ℤ) : ℕ := (n % 2 ^ 64).toNat

/-- The place of the last byte that is kept. Source: `ul_file.cpp` `ul_fullpath`, the first loop. -/
def lastKept (path : Bytes) : ℕ → ℕ
  | 0 => 0
  | n + 1 => if path[n + 1]? = some 47 then lastKept path n else n + 1

/-- Source: `ul_file.cpp` `ul_fullpath`, from the second loop on. -/
def finish (fname : Bytes) (fullpath : Buffer) (pathLen size : ℕ) : ℤ × Buffer :=
  let fname := fname.dropWhile (· = 47)
  let t := if fullpath.cells pathLen = 47 then fname else 47 :: fname
  (if toSize (snprintfRet t + pathLen + 1) ≥ size then -1 else 0,
    snprintf fullpath (pathLen + 1) (size - (pathLen + 1)) t)

/-- What is returned, and the buffer. Source: `ul_file.cpp` `ul_fullpath`. -/
def ulFullpath (path fname : Bytes) (fullpath : Buffer) (size : ℕ) : ℤ × Buffer :=
  let fullpath := fullpath.put 0 [0]
  if size = 0 then (-1, fullpath)
  else if 0 < path.length then
    let pathLen := lastKept path (path.length - 1)
    if pathLen ≥ size then (-1, fullpath)
    else finish fname (fullpath.put 0 (path.take (pathLen + 1))) pathLen size
  else if fname.head? ≠ some 47 then
    (if toSize (snprintfRet fname) ≥ size then -1 else 0, snprintf fullpath 0 size fname)
  else finish fname (fullpath.put 0 [47]) 0 size

/-! ## The joined path -/

/-- The directory without its slashes behind. -/
def stem (path : Bytes) : Bytes := path.rdropWhile (· = 47)

/-- The file name without its slashes in front. -/
def base (fname : Bytes) : Bytes := fname.dropWhile (· = 47)

/-- The joined path. -/
def joined (path fname : Bytes) : Bytes :=
  if path = [] ∧ fname.head? ≠ some 47 then fname else stem path ++ 47 :: base fname

/-- The joined path is stored if it is shorter than the size, and refused if not. -/
def Joins (path fname : Bytes) (size : ℕ) (result : ℤ × Buffer) : Prop :=
  if (joined path fname).length < size then result.1 = 0 ∧ Holds result.2.cells size (joined path fname)
  else result.1 = -1

/-- What is printed behind the directory. -/
def printed (path fname : Bytes) : Bytes := if stem path = [] then base fname else 47 :: base fname

/-- What `snprintf` prints is counted by an `int`, or its length does not matter; and a sum of sizes does not
wrap around unless the directory alone is too long. -/
def Countable (path fname : Bytes) (size : ℕ) : Prop :=
  if path = [] ∧ fname.head? ≠ some 47 then fname.length < 2 ^ 31 ∨ size ≤ fname.length
  else (joined path fname).length < size ∨ size < (stem path).length ∨
    (printed path fname).length < 2 ^ 31 ∧ (joined path fname).length < 2 ^ 64

variable {path fname k t : Bytes} {b : Buffer} {size n pathLen : ℕ}

/-! ## The directory -/

/-- The part of the directory that is copied: the slash of the root, or the directory without its slashes
behind. -/
theorem take_lastKept (hn : n < path.length) : path.take (lastKept path n + 1) =
    if stem (path.take (n + 1)) = [] then path.take 1 else stem (path.take (n + 1)) := by
  induction n with
  | zero =>
      rw [lastKept]
      obtain ⟨c, path, rfl⟩ := List.exists_cons_of_length_pos hn
      by_cases hc : c = 47
      · simp [stem, List.rdropWhile_singleton, hc]
      · simp [stem, List.rdropWhile_singleton, hc]
  | succ n ih =>
      have hlast : path.take (n + 1 + 1) = path.take (n + 1) ++ [path[n + 1]] :=
        List.take_succ_eq_append_getElem hn
      have hget : path[n + 1]? = some path[n + 1] := List.getElem?_eq_getElem hn
      rw [lastKept]
      by_cases hslash : path[n + 1] = 47
      · have hstem : stem (path.take (n + 1 + 1)) = stem (path.take (n + 1)) := by
          rw [hlast]
          exact List.rdropWhile_concat_pos _ _ _ (decide_eq_true hslash)
        rw [if_pos (hget.trans (congrArg some hslash)), hstem, ih (by omega)]
      · have hstem : stem (path.take (n + 1 + 1)) = path.take (n + 1 + 1) := by
          rw [hlast]
          exact List.rdropWhile_concat_neg _ _ _ (by rwa [decide_eq_true_iff])
        have hne : path.take (n + 1 + 1) ≠ [] := by
          rw [hlast]
          exact List.append_ne_nil_of_right_ne_nil _ (List.cons_ne_nil _ _)
        rw [if_neg fun heq => hslash (Option.some.inj (hget.symm.trans heq)), hstem, if_neg hne]

theorem lastKept_le (path : Bytes) (n : ℕ) : lastKept path n ≤ n := by
  induction n with
  | zero => exact Nat.le_refl 0
  | succ n ih =>
      rw [lastKept]
      split_ifs
      · exact Nat.le_succ_of_le ih
      · exact Nat.le_refl _

/-- **What is copied** of a directory that is not empty. -/
theorem kept_eq (h : path ≠ []) : path.take (lastKept path (path.length - 1) + 1) =
    if stem path = [] then [47] else stem path := by
  have hpos := List.length_pos_of_ne_nil h
  have htake := take_lastKept (show path.length - 1 < path.length by omega)
  rw [List.take_of_length_le (show path.length ≤ path.length - 1 + 1 by omega)] at htake
  rw [htake]
  split_ifs with hstem
  · have hall := List.rdropWhile_eq_nil_iff.mp hstem
    obtain ⟨c, path, rfl⟩ := List.exists_cons_of_ne_nil h
    simpa using hall c List.mem_cons_self
  · rfl

theorem length_kept (h : path ≠ []) :
    (path.take (lastKept path (path.length - 1) + 1)).length = lastKept path (path.length - 1) + 1 := by
  have hpos := List.length_pos_of_ne_nil h
  have hlast := lastKept_le path (path.length - 1)
  rw [List.length_take]
  omega

/-- The directory is too long alone. -/
theorem lt_length_stem_iff (h : path ≠ []) (hsize : 1 ≤ size) :
    size < (stem path).length ↔ size ≤ lastKept path (path.length - 1) := by
  have hlen := length_kept h
  rw [kept_eq h] at hlen
  split_ifs at hlen with hnil
  · rw [List.length_singleton] at hlen
    rw [hnil, List.length_nil]
    omega
  · omega

/-- The last byte that is copied. -/
theorem last_kept (b : Buffer) (hk : k.length = pathLen + 1)
    (hkept : k = if stem path = [] then [47] else stem path) : (b.put 0 k).cells pathLen = 47 ↔ stem path = [] := by
  have hlt : pathLen < k.length := by omega
  have hcell : (b.put 0 k).cells pathLen = k[pathLen] := by
    rw [cells_put, if_pos (Nat.zero_le _), Nat.sub_zero, List.getD_eq_getElem _ _ hlt]
  rw [hcell]
  split_ifs at hkept with hstem
  · subst hkept
    obtain rfl : pathLen = 0 := by simpa using hk.symm
    simp [hstem]
  · have hlast : (stem path).getLast hstem ≠ 47 := fun heq =>
      List.rdropWhile_last_not _ path hstem (decide_eq_true heq)
    subst hkept
    rw [List.getLast_eq_getElem] at hlast
    refine iff_of_false (fun heq => hlast ?_) hstem
    rw [← heq]
    congr 1
    omega

/-- What `snprintf` returns, behind the directory. -/
theorem toSize_ret (hk : pathLen < size) (hsize : size < 2 ^ 64) :
    toSize (snprintfRet t + pathLen + 1) < size ↔ pathLen + 1 + t.length < size ∨ 2 ^ 31 ≤ t.length ∨
      2 ^ 64 ≤ pathLen + 1 + t.length := by
  unfold toSize snprintfRet
  split_ifs <;> omega

/-- **What is printed behind the directory.** -/
theorem finish_iff (hreach : b.reach ≤ size) (hpeek : peek b.cells 0 k.length = k) (hk : k.length = pathLen + 1)
    (hlt : pathLen < size) (hsize : size < 2 ^ 64) (hslash : b.cells pathLen = 47 ↔ stem path = [])
    (hjoined : k ++ printed path fname = joined path fname) :
    (finish fname b pathLen size).2.reach ≤ size ∧ (Joins path fname size (finish fname b pathLen size) ↔
      (joined path fname).length < size ∨
        (printed path fname).length < 2 ^ 31 ∧ (joined path fname).length < 2 ^ 64) := by
  have hfinish : finish fname b pathLen size =
      (if toSize (snprintfRet (printed path fname) + pathLen + 1) ≥ size then -1 else 0,
        snprintf b k.length (size - k.length) (printed path fname)) := by
    unfold finish printed base
    simp only [hslash, hk]
  have hlen := congrArg List.length hjoined
  have hret := toSize_ret (t := printed path fname) hlt hsize
  rw [List.length_append, hk] at hlen
  rw [hfinish]
  refine ⟨reach_snprintf_le hreach (by omega) _, ?_⟩
  unfold Joins
  by_cases hfits : (joined path fname).length < size
  · have hholds := holds_snprintf hpeek (hjoined.symm ▸ hfits)
    rw [hjoined] at hholds
    rw [if_pos hfits, if_neg (not_le.mpr (hret.mpr (by omega)))]
    exact iff_of_true ⟨rfl, hholds⟩ (Or.inl hfits)
  · rw [if_neg hfits]
    by_cases hle : size ≤ toSize (snprintfRet (printed path fname) + pathLen + 1)
    · rw [if_pos hle]
      exact iff_of_true rfl (Or.inr (by omega))
    · rw [if_neg hle]
      exact iff_of_false (by simp) (by omega)

/-- **What is printed without a directory.** -/
theorem name_iff (hreach : b.reach ≤ size) (hsize : 1 ≤ size) (hlt : size < 2 ^ 64)
    (hhead : fname.head? ≠ some 47) : (snprintf b 0 size fname).reach ≤ size ∧
      (Joins [] fname size (if toSize (snprintfRet fname) ≥ size then -1 else 0, snprintf b 0 size fname) ↔
        fname.length < 2 ^ 31 ∨ size ≤ fname.length) := by
  have hjoined : joined [] fname = fname := if_pos ⟨rfl, hhead⟩
  have hret : toSize (snprintfRet fname) < size ↔ fname.length < size ∧ fname.length < 2 ^ 31 := by
    unfold toSize snprintfRet
    split_ifs <;> omega
  refine ⟨reach_snprintf_le hreach (Nat.zero_le _) fname, ?_⟩
  unfold Joins
  rw [hjoined]
  by_cases hfits : fname.length < size
  · have hholds : Holds (snprintf b 0 size fname).cells size fname := holds_snprintf (s := []) rfl hfits
    rw [if_pos hfits]
    by_cases hle : size ≤ toSize (snprintfRet fname)
    · rw [if_pos hle]
      exact iff_of_false (by simp) (by omega)
    · rw [if_neg hle]
      exact iff_of_true ⟨rfl, hholds⟩ (by omega)
  · rw [if_neg hfits, if_pos (show toSize (snprintfRet fname) ≥ size by omega)]
    exact iff_of_true rfl (by omega)

/-- **When the joined path is stored or refused** as it should be, and that the buffer is not left. -/
theorem ulFullpath_iff (path fname : CStr) (cells : Mem UInt8) (size : UInt64) (hsize : 1 ≤ size.toNat) :
    (ulFullpath path fname ⟨cells, 0⟩ size.toNat).2.reach ≤ size.toNat ∧
      (Joins path fname size.toNat (ulFullpath path fname ⟨cells, 0⟩ size.toNat) ↔
        Countable path fname size.toNat) := by
  have hlt : size.toNat < 2 ^ 64 := size.toNat_lt
  have hreach : ((⟨cells, 0⟩ : Buffer).put 0 [0]).reach ≤ size.toNat :=
    reach_put_le (Nat.zero_le _) (by simpa using hsize)
  obtain ⟨path, -⟩ := path
  obtain ⟨fname, -⟩ := fname
  unfold ulFullpath Countable
  dsimp only
  rw [if_neg (Nat.ne_of_gt hsize)]
  by_cases hpath : path = []
  · subst hpath
    rw [if_neg (show ¬0 < ([] : Bytes).length from Nat.lt_irrefl 0)]
    by_cases hhead : fname.head? ≠ some 47
    · rw [if_pos hhead, if_pos (And.intro rfl hhead)]
      exact name_iff hreach hsize hlt hhead
    · rw [if_neg hhead, if_neg (fun h => hhead (And.right h))]
      have hput : (((⟨cells, 0⟩ : Buffer).put 0 [0]).put 0 [47]).reach ≤ size.toNat :=
        reach_put_le hreach (by simpa using hsize)
      have hjoined : [47] ++ printed [] fname = joined [] fname := by
        simp [joined, hhead, printed, stem]
      have hfinish := finish_iff hput (peek_poke_self _ 0 [47]) rfl hsize hlt (by simp [stem, cells_put]) hjoined
      refine ⟨hfinish.1, hfinish.2.trans ?_⟩
      simp [stem]
  · have hkept := kept_eq hpath
    have hlen := length_kept hpath
    have hstem := lt_length_stem_iff hpath hsize
    rw [if_pos (List.length_pos_of_ne_nil hpath), if_neg (fun h => hpath (And.left h)), hstem]
    by_cases hlong : size.toNat ≤ lastKept path (path.length - 1)
    · rw [if_pos hlong]
      have hjoined : ¬(joined path fname).length < size.toNat := by
        rw [← hstem] at hlong
        rw [joined, if_neg (fun h => hpath (And.left h)), List.length_append]
        omega
      exact ⟨hreach, iff_of_true ((if_neg hjoined).mpr rfl) (Or.inr (Or.inl hlong))⟩
    · rw [if_neg hlong, or_iff_right hlong]
      have hput : (((⟨cells, 0⟩ : Buffer).put 0 [0]).put 0
          (path.take (lastKept path (path.length - 1) + 1))).reach ≤ size.toNat := reach_put_le hreach (by omega)
      have hjoined : path.take (lastKept path (path.length - 1) + 1) ++ printed path fname = joined path fname := by
        rw [hkept]
        simp only [joined, hpath, false_and, if_false, printed]
        split_ifs with hnil
        · simp [hnil]
        · rfl
      exact finish_iff hput (peek_poke_self _ 0 _) hlen (by omega) hlt (last_kept _ hlen hkept) hjoined

/-- `d/` and `/f`, for 8 bytes. -/
theorem ulFullpath_iff_slashes : 1 ≤ (8 : UInt64).toNat ∧
    Joins [100, 47] [47, 102] 8 (ulFullpath [100, 47] [47, 102] ⟨fun _ => 0, 0⟩ 8) := by
  have hcountable : Countable [100, 47] [47, 102] 8 := by
    rw [Countable, if_neg (by decide)]
    exact Or.inl (by decide)
  exact ⟨by decide, (ulFullpath_iff ⟨[100, 47], by decide⟩ ⟨[47, 102], by decide⟩ (fun _ => 0) 8
    (by decide)).2.mpr hcountable⟩

/-- A name that `snprintf` cannot count is taken for one that fits. -/
theorem not_joins_long (hfirst : base fname = fname) (hlong : 2 ^ 31 ≤ fname.length) (hlt : fname.length < 2 ^ 63) :
    ¬Joins [100] fname 16 (ulFullpath [100] fname ⟨fun _ => 0, 0⟩ 16) := by
  have hput : (((⟨fun _ => 0, 0⟩ : Buffer).put 0 [0]).put 0 [100]).reach ≤ 16 := by decide
  have hjoined : [100] ++ printed [100] fname = joined [100] fname := rfl
  have hfinish := finish_iff hput (peek_poke_self _ 0 [100]) rfl (by decide) (by decide) (by decide) hjoined
  have hprinted : (printed [100] fname).length = fname.length + 1 := by
    rw [printed, if_neg (by decide), hfirst, List.length_cons]
  refine fun hjoins => absurd (hfinish.2.mp hjoins) ?_
  rw [← hjoined, List.length_append, hprinted, List.length_singleton]
  omega

/-- The directory `d`, and a name of `2 ^ 31` bytes `a`. -/
theorem ulFullpath_long : 0 ∉ List.replicate (2 ^ 31) (97 : UInt8) ∧
    ¬Joins [100] (List.replicate (2 ^ 31) 97) 16
      (ulFullpath [100] (List.replicate (2 ^ 31) 97) ⟨fun _ => 0, 0⟩ 16) := by
  have hlen : (List.replicate (2 ^ 31) (97 : UInt8)).length = 2 ^ 31 := List.length_replicate
  refine ⟨fun hmem => absurd (List.eq_of_mem_replicate hmem) (by decide), not_joins_long ?_ hlen.ge (by omega)⟩
  rw [base, List.dropWhile_replicate, if_neg (by decide)]

end Asenal.Ul
