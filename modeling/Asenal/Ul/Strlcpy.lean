import Asenal.Lib.Bounded
import Asenal.Lib.CString

/-!
# Bounded copies

`ul_strlcpy` and `ul_strlcat` write what fits of a string and a terminator, and return how long the whole string
would have been.

* `strlcpy_eq`, `strlcat_eq` — what is written, and what is returned.
* `strl_spec` — the contract of both.
-/

namespace Asenal.Ul

open Asenal.Lib.Text Asenal.Lib.CString Asenal.Lib.Memory Asenal.Lib.Bounded

/-! ## The program -/

/-- `*s`, where the string ends in a `0`. -/
def byteOf (src : Bytes) (s : ℕ) : UInt8 := (src ++ [0]).getD s 0

/-- The destination, both cursors and the bytes that are left, behind the loop that copies `n` bytes at most.
Source: `ul_string.cpp` `ul_strlcpy`, the first loop. -/
def copyLoop (src : Bytes) : ℕ → Buffer → ℕ → ℕ → Buffer × ℕ × ℕ × ℕ
  | 0, dst, d, s => (dst, d, s, 0)
  | n + 1, dst, d, s =>
      let dst := dst.put d [byteOf src s]
      if byteOf src s = 0 then (dst, d + 1, s + 1, n + 1) else copyLoop src n dst (d + 1) (s + 1)

/-- `while (*s++);`, from the bytes that are left. -/
def passNul : Bytes → ℕ → ℕ
  | [], s => s + 1
  | c :: rest, s => if c = 0 then s + 1 else passNul rest (s + 1)

/-- The destination and the length that is returned. Source: `ul_string.cpp` `ul_strlcpy`. -/
def ulStrlcpy (dst : Buffer) (src : Bytes) (siz : ℕ) : Buffer × ℕ :=
  let (dst, d, s, n) := if siz ≠ 0 then copyLoop src (siz - 1) dst 0 0 else (dst, 0, 0, 0)
  if n = 0 then (if siz ≠ 0 then dst.put d [0] else dst, passNul (src.drop s) s - 1) else (dst, s - 1)

/-- The end of the string in the destination, or the end of the room. Source: `ul_string.cpp` `ul_strlcat`, the
first loop. -/
def endLoop (cells : Mem UInt8) : ℕ → ℕ → ℕ
  | 0, d => d
  | n + 1, d => if cells d ≠ 0 then endLoop cells n (d + 1) else d

/-- The destination and its cursor behind the bytes of the source. Source: `ul_string.cpp` `ul_strlcat`, the
second loop. -/
def appendLoop : Bytes → ℕ → Buffer → ℕ → Buffer × ℕ
  | [], _, dst, d => (dst, d)
  | c :: rest, n, dst, d => if n ≠ 1 then appendLoop rest (n - 1) (dst.put d [c]) (d + 1) else appendLoop rest n dst d

/-- The destination and the length that is returned. Source: `ul_string.cpp` `ul_strlcat`. -/
def ulStrlcat (dst : Buffer) (src : Bytes) (siz : ℕ) : Buffer × ℕ :=
  let dlen := endLoop dst.cells siz 0
  if siz - dlen = 0 then (dst, dlen + src.length)
  else
    let (dst, d) := appendLoop src (siz - dlen) dst dlen
    (dst.put d [0], dlen + src.length)

/-! ## What is written -/

variable {src : Bytes} {dst : Buffer} {n d s siz : ℕ}

/-- A byte in front of the end. -/
theorem byteOf_of_lt (hs : s < src.length) : byteOf src s = src[s] := by
  simp [byteOf, List.getElem?_append_left hs, hs]

/-- The byte at the end. -/
theorem byteOf_length (src : Bytes) : byteOf src src.length = 0 := by
  simp [byteOf]

/-- The search for the end stops behind it. -/
theorem passNul_eq {rest : Bytes} (h : 0 ∉ rest) (s : ℕ) : passNul rest s = s + rest.length + 1 := by
  induction rest generalizing s with
  | nil => rfl
  | cons c rest ih =>
      obtain ⟨hc, hrest⟩ := not_or.mp (mt List.mem_cons.mpr h)
      rw [passNul, if_neg (Ne.symm hc), ih hrest, List.length_cons]
      omega

/-- No byte in front of the end is the end. -/
theorem byteOf_ne_zero (hsrc : 0 ∉ src) (hs : s < src.length) : byteOf src s ≠ 0 := by
  rw [byteOf_of_lt hs]
  exact fun heq => hsrc (heq ▸ List.getElem_mem hs)

/-- A byte and those behind it. -/
theorem put_byteOf (dst : Buffer) (d : ℕ) (hs : s < src.length) (bs : Bytes) :
    (dst.put d [byteOf src s]).put (d + 1) bs = dst.put d (src[s] :: bs) := by
  rw [byteOf_of_lt hs]
  exact put_put dst d [src[s]] bs

/-- **The copy** with the terminator, if it is reached. -/
theorem copyLoop_of_lt (hsrc : 0 ∉ src) (hs : s ≤ src.length) (hn : src.length - s < n) :
    copyLoop src n dst d s = (dst.put d (src.drop s ++ [0]), d + (src.length - s) + 1, src.length + 1,
      n - (src.length - s)) := by
  induction n generalizing dst d s with
  | zero => omega
  | succ n ih =>
      rw [copyLoop]
      rcases Nat.lt_or_eq_of_le hs with hlt | rfl
      · simp only [if_neg (byteOf_ne_zero hsrc hlt)]
        rw [ih hlt (by omega), put_byteOf dst d hlt, List.drop_eq_getElem_cons hlt, List.cons_append]
        simp only [Prod.mk.injEq, true_and]
        omega
      · simp [byteOf_length]

/-- **The copy** of as many bytes as fit. -/
theorem copyLoop_of_le (hsrc : 0 ∉ src) (hn : s + n ≤ src.length) :
    copyLoop src n dst d s = (dst.put d ((src.drop s).take n), d + n, s + n, 0) := by
  induction n generalizing dst d s with
  | zero => simp [copyLoop, Buffer.put]
  | succ n ih =>
      have hlt : s < src.length := by omega
      rw [copyLoop]
      simp only [if_neg (byteOf_ne_zero hsrc hlt)]
      rw [ih (by omega), put_byteOf dst d hlt, List.drop_eq_getElem_cons hlt, List.take_succ_cons]
      simp only [Prod.mk.injEq, true_and, and_true]
      omega

/-- **What `ul_strlcpy` does**: the bytes that fit and a terminator are written. -/
theorem ulStrlcpy_eq (hsrc : 0 ∉ src) (dst : Buffer) (siz : ℕ) :
    ulStrlcpy dst src siz = (if siz = 0 then dst else dst.put 0 (src.take (siz - 1) ++ [0]), src.length) := by
  have hpass : ∀ k ≤ src.length, passNul (src.drop k) k - 1 = src.length := by
    intro k hk
    rw [passNul_eq fun h => hsrc (List.mem_of_mem_drop h), List.length_drop]
    omega
  unfold ulStrlcpy
  rcases Nat.eq_zero_or_pos siz with rfl | hpos
  · simpa using hpass 0 (Nat.zero_le _)
  · have hsiz : siz ≠ 0 := Nat.ne_of_gt hpos
    simp only [if_pos hsiz, if_neg hsiz]
    rcases Nat.lt_or_ge src.length (siz - 1) with hfits | hlong
    · rw [copyLoop_of_lt hsrc (Nat.zero_le _) (by omega)]
      simp [List.take_of_length_le hfits.le]
      omega
    · rw [copyLoop_of_le hsrc (by omega)]
      have hput := put_put dst 0 (src.take (siz - 1)) [0]
      rw [List.length_take, Nat.min_eq_left hlong, Nat.zero_add] at hput
      simp [hput, hpass (siz - 1) hlong]

/-- The string in the first `siz` cells of the destination. -/
def held (cells : Mem UInt8) (siz : ℕ) : Bytes := cstr (peek cells 0 siz)

/-- The search for the end of the destination. -/
theorem endLoop_eq (cells : Mem UInt8) (n d : ℕ) : endLoop cells n d = d + (cstr (peek cells d n)).length := by
  induction n generalizing d with
  | zero => rfl
  | succ n ih =>
      have hpeek : peek cells d (n + 1) = cells d :: peek cells (d + 1) n := by
        rw [Nat.add_comm, peek_add]
        rfl
      rw [endLoop, hpeek]
      by_cases hzero : cells d = 0
      · simp [hzero, cstr]
      · rw [if_pos hzero, ih]
        simp [hzero, cstr]
        omega

/-- What fits is appended. -/
theorem appendLoop_eq (rest : Bytes) (hn : 0 < n) (dst : Buffer) (d : ℕ) :
    appendLoop rest n dst d = (dst.put d (rest.take (n - 1)), d + (rest.take (n - 1)).length) := by
  induction rest generalizing n dst d with
  | nil => simp [appendLoop, Buffer.put]
  | cons c rest ih =>
      rw [appendLoop]
      split_ifs with hone
      · obtain ⟨n, rfl⟩ : ∃ k, n = k + 2 := ⟨n - 2, by omega⟩
        rw [ih (by omega)]
        have hput := put_put dst d [c] (rest.take n)
        simp only [List.length_singleton, List.singleton_append] at hput
        simp [hput]
        omega
      · rw [ih hn]
        obtain rfl : n = 1 := by omega
        simp

/-- **What `ul_strlcat` does**: behind the string that is there, the bytes that fit and a terminator are
written. -/
theorem ulStrlcat_eq (dst : Buffer) (src : Bytes) (siz : ℕ) : ulStrlcat dst src siz =
    (if siz ≤ (held dst.cells siz).length then dst
      else dst.put (held dst.cells siz).length (src.take (siz - (held dst.cells siz).length - 1) ++ [0]),
      (held dst.cells siz).length + src.length) := by
  have hend : endLoop dst.cells siz 0 = (held dst.cells siz).length := by
    rw [endLoop_eq, Nat.zero_add, held]
  unfold ulStrlcat
  rw [hend]
  by_cases hfull : siz ≤ (held dst.cells siz).length
  · simp [hfull, Nat.sub_eq_zero_of_le hfull]
  · have hroom : siz - (held dst.cells siz).length ≠ 0 := by omega
    simp only [if_neg hroom, if_neg hfull]
    rw [appendLoop_eq src (Nat.pos_of_ne_zero hroom)]
    simp only [put_put]

/-! ## The contract -/

/-- The contract for the string `t`, where there is room for a terminator: nothing is written behind the first
`siz` cells, the longest prefix that fits and its terminator are there, and the length of the whole string is
returned, which says whether it is there. -/
structure Contract (cells : Mem UInt8) (siz : ℕ) (room : Prop) (t : Bytes) (dst : Buffer) (ret : ℕ) : Prop where
  reach_le : dst.reach ≤ siz
  behind : ∀ i, siz ≤ i → dst.cells i = cells i
  shows : room → peek dst.cells 0 ((t.take (siz - 1)).length + 1) = t.take (siz - 1) ++ [0]
  kept : ¬ room → dst.cells = cells
  ret_eq : ret = t.length
  truncated_iff : siz ≤ ret ↔ ¬ Holds dst.cells siz t

variable {cells : Mem UInt8} {t : Bytes}

/-- What is held is the beginning of the array. -/
theorem held_isPrefix (cells : Mem UInt8) (siz : ℕ) : held cells siz <+: peek cells 0 siz :=
  List.takeWhile_prefix _

/-- What is held is read from the array. -/
theorem peek_held (cells : Mem UInt8) (siz : ℕ) : peek cells 0 (held cells siz).length = held cells siz := by
  obtain ⟨rest, hrest⟩ := held_isPrefix cells siz
  have hpeek : peek cells 0 (held cells siz ++ rest).length = held cells siz ++ rest := by
    rw [hrest, length_peek]
  exact (peek_append hpeek).1

/-- The string ends in the first cells where they have a terminator. -/
theorem length_held_lt_iff : (held cells siz).length < siz ↔ ∃ k < siz, cells k = 0 := by
  have hwhole : held cells siz = peek cells 0 siz ↔ siz ≤ (held cells siz).length := by
    constructor
    · intro heq
      rw [heq, length_peek]
    · exact fun hle => (held_isPrefix cells siz).eq_of_length_le (by rwa [length_peek])
  rw [← not_le, ← hwhole, held, cstr, List.takeWhile_eq_self_iff]
  simp [peek]

/-- **A string** that is continued. -/
theorem contract_put (src : Bytes) {h : Bytes} (hpeek : peek cells 0 h.length = h) (hlt : h.length < siz) {room : Prop}
    (hroom : room) : Contract cells siz room (h ++ src)
      ((⟨cells, 0⟩ : Buffer).put h.length (src.take (siz - h.length - 1) ++ [0])) (h.length + src.length) := by
  have hlen : h.length + (src.take (siz - h.length - 1) ++ [0]).length ≤ siz := by
    simp
    omega
  have htake : (h ++ src).take (siz - 1) = h ++ src.take (siz - h.length - 1) := by
    rw [List.take_append, List.take_of_length_le (by omega), Nat.sub_right_comm]
  have hshows : peek (poke cells h.length (src.take (siz - h.length - 1) ++ [0])) 0
      (((h ++ src).take (siz - 1)).length + 1) = (h ++ src).take (siz - 1) ++ [0] := by
    have hextend := peek_poke_extend cells (src.take (siz - h.length - 1) ++ [0]) (Nat.zero_add h.length).symm
    rw [hpeek, List.length_append, List.length_singleton, ← List.append_assoc, ← htake] at hextend
    rw [← hextend, htake, List.length_append, Nat.add_assoc]
  refine ⟨reach_put_le (Nat.zero_le _) hlen, fun i hi => ?_, fun _ => hshows, fun hno => absurd hroom hno,
    List.length_append.symm, ?_⟩
  · rw [cells_put, if_pos (by omega), List.getD_eq_default _ _ (by omega)]
  · rw [← List.length_append]
    constructor
    · exact fun hle hholds => absurd hholds.1 (not_lt.mpr hle)
    · refine fun hno => not_lt.mp fun hfits => hno ⟨hfits, ?_⟩
      have hall : (h ++ src).take (siz - 1) = h ++ src := List.take_of_length_le (by omega)
      rwa [hall] at hshows

/-- **The contract** of both functions, for each source, each destination and each size. -/
theorem strl_spec (src : CStr) (cells : Mem UInt8) (siz : ℕ) :
    Contract cells siz (0 < siz) src.1 (ulStrlcpy ⟨cells, 0⟩ src siz).1 (ulStrlcpy ⟨cells, 0⟩ src siz).2 ∧
    Contract cells siz (∃ k < siz, cells k = 0) (held cells siz ++ src.1) (ulStrlcat ⟨cells, 0⟩ src siz).1
      (ulStrlcat ⟨cells, 0⟩ src siz).2 := by
  have hfull : ∀ {room : Prop} {t : Bytes}, ¬ room → siz ≤ t.length →
      Contract cells siz room t ⟨cells, 0⟩ t.length := fun hroom hle =>
    ⟨Nat.zero_le _, fun _ _ => rfl, fun h => absurd h hroom, fun _ => rfl, rfl,
      iff_of_true hle fun hholds => absurd hholds.1 (not_lt.mpr hle)⟩
  constructor
  · rw [ulStrlcpy_eq src.2]
    rcases Nat.eq_zero_or_pos siz with rfl | hpos
    · exact hfull (Nat.lt_irrefl 0) (Nat.zero_le _)
    · have hcopied := contract_put src.1 (h := []) (peek_zero cells 0) hpos hpos
      simpa [Nat.ne_of_gt hpos] using hcopied
  · rw [ulStrlcat_eq]
    by_cases hroom : (held cells siz).length < siz
    · rw [if_neg (not_le.mpr hroom)]
      exact contract_put src.1 (peek_held cells siz) hroom (length_held_lt_iff.mp hroom)
    · rw [if_pos (not_lt.mp hroom), ← List.length_append]
      refine hfull (mt length_held_lt_iff.mpr hroom) ?_
      rw [List.length_append]
      omega

end Asenal.Ul
