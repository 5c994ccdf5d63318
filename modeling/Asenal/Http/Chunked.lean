import Asenal.Lib.CString
import Asenal.Lib.Scan

/-!
# Chunked pages

The two functions that take the chunks of a page together, in place. A chunk is a line with its size in
hexadecimal digits and as many bytes, with a line end behind them; a chunk of the size zero is the last one. They
read the sizes with `sscanf` and look for the ends of their lines with `strstr`, and overwrite each such end.

* `length_chunkLoop_le` — the chunks fit the array that they are collected in.
* `chunkLoop_spec` — what the loop collects of a page that may be cut off.
* `chunkpage_prefix` — what both functions leave in the page.
-/

namespace Asenal.Http

open Asenal.Lib.Text Asenal.Lib.Memory Asenal.Lib.CString Asenal.Lib.Scan

/-! ## The functions -/

/-- `MAXPAGE`. Source: `dep/dep_http.h`. -/
def maxPage : ℕ := 256000

/-- The end of a line. -/
abbrev crlf : Bytes := [13, 10]

/-- `sscanf(s, "%x", &chunksize)`. -/
def scanX (s : Bytes) : Option Int32 := (scanBase 16 s).map fun v => (toULong v).toUInt32.toInt32

/-- The string at a position of the page, whose end is at `old`. -/
def strAt (m : Mem UInt8) (old pos : ℕ) : Bytes := cstr (peek m pos (old + 1 - pos))

/-- The `while` loop: the page and what `tpage` holds. `p` is where the line with `chunksize` ends. -/
def chunkLoop (old : ℕ) (m : Mem UInt8) (tpage : Bytes) (p : ℕ) (chunksize : Int32) : Mem UInt8 × Bytes :=
  if 0 < chunksize.toInt then
    let n := chunksize.toInt.toNat
    if _h : p + 2 + n < old then
      let tpage := tpage ++ peek m (p + 2) n
      let tmps := p + 2 + n + 2
      if tmps < old then
        match strstr crlf (strAt m old tmps) with
        | none => (m, tpage)
        | some k =>
            let m := poke m (tmps + k) [0]
            match scanX (strAt m old tmps) with
            | none => (m, tpage)
            | some chunksize => chunkLoop old m tpage (tmps + k) chunksize
      else (m, tpage)
    else (m, tpage ++ peek m (p + 2) (old - (p + 2)))
  else (m, tpage)
termination_by old - p
decreasing_by omega

/-- What both functions do: the return value, and the page. -/
def dechunk (m : Mem UInt8) (pagesize : ℕ) : ℕ × Mem UInt8 :=
  match scanX (strAt m pagesize 0) with
  | none => (pagesize, m)
  | some chunksize =>
      match strstr crlf (strAt m pagesize 0) with
      | none => (pagesize, m)
      | some p =>
          let r := chunkLoop pagesize (poke m p [0]) [] p chunksize
          (r.2.length, poke r.1 0 (r.2 ++ [0]))

/-- Source: `dep/dep_http.cpp` `chunkpage`. -/
def chunkpage (m : Mem UInt8) (pagesize : ℕ) : ℕ × Mem UInt8 :=
  if maxPage ≤ pagesize then (0, m) else dechunk m pagesize

/-- Whether there is memory is up to `calloc`. Source: `dep/dep_http.cpp` `chunkpage_new`. -/
def chunkpageNew (calloc : Bool) (m : Mem UInt8) (pagesize : ℕ) : ℕ × Mem UInt8 :=
  if calloc then dechunk m pagesize else (pagesize, m)

/-! ## The array of the chunks -/

/-- A string ends in front of the end of the page. -/
theorem length_strAt_le {m : Mem UInt8} {old : ℕ} (hold : m old = 0) {pos : ℕ} (hpos : pos ≤ old) :
    (strAt m old pos).length ≤ old - pos := by
  have hsplit : old + 1 - pos = (old - pos) + 1 := by omega
  have hend : peek m (pos + (old - pos)) 1 = [0] := by
    have hat : pos + (old - pos) = old := by omega
    rw [hat]
    simp [peek, hold]
  have hle : (cstr (peek m pos (old - pos))).length ≤ old - pos := by
    have htake := (List.takeWhile_prefix (l := peek m pos (old - pos)) (· != 0)).length_le
    rwa [length_peek] at htake
  unfold strAt
  rw [hsplit, peek_add, hend]
  by_cases hzero : 0 ∈ peek m pos (old - pos)
  · rw [cstr_append_of_mem hzero]
    exact hle
  · rw [cstr_append_nul hzero, length_peek]

/-- The line end that is found in a string stands in front of the end of the page. -/
theorem crlf_le_old {m : Mem UInt8} {old : ℕ} (hold : m old = 0) {pos k : ℕ} (hpos : pos ≤ old)
    (h : strstr crlf (strAt m old pos) = some k) : pos + k + 2 ≤ old := by
  obtain ⟨a, b, hsplit, hlen⟩ := strstr_eq_some h
  have hle := length_strAt_le hold hpos
  rw [hsplit, List.length_append, List.length_append] at hle
  have htwo : crlf.length = 2 := rfl
  omega

/-- **The chunks fit the array**: they are no longer than the page. -/
theorem length_chunkLoop_le {old : ℕ} {m : Mem UInt8} {tpage : Bytes} {p : ℕ} (chunksize : Int32)
    (hold : m old = 0) (hp : p + 2 ≤ old) (htpage : tpage.length ≤ p + 2) :
    (chunkLoop old m tpage p chunksize).2.length ≤ old := by
  have hgrow : ∀ (m : Mem UInt8) (tpage : Bytes) (p n : ℕ), tpage.length ≤ p + 2 →
      (tpage ++ peek m (p + 2) n).length ≤ p + 2 + n := by
    intro m tpage p n h
    rw [List.length_append, length_peek]
    omega
  fun_induction chunkLoop old m tpage p chunksize with
  | case1 m tpage p chunksize _ n hn => exact Nat.le_trans (hgrow m tpage p n htpage) (Nat.le_of_lt hn)
  | case2 m tpage p chunksize _ n hn => exact Nat.le_trans (hgrow m tpage p n htpage) (Nat.le_of_lt hn)
  | case3 m tpage p chunksize _ n hn tpage' tmps htmps k hk m' chunksize' hscan ih =>
      have hnext : tmps + k + 2 ≤ old := crlf_le_old hold (Nat.le_of_lt htmps) hk
      have htpage' : tpage'.length ≤ p + 2 + n := hgrow m tpage p n htpage
      have hdef : tmps = p + 2 + n + 2 := rfl
      have hold' : m' old = 0 := by
        have hcell : m' old = poke m (tmps + k) [0] old := rfl
        rw [hcell, poke_singleton, Function.update_of_ne (by omega), hold]
      exact ih hold' hnext (by omega)
  | case4 m tpage p chunksize _ n hn => exact Nat.le_trans (hgrow m tpage p n htpage) (Nat.le_of_lt hn)
  | case5 m tpage p => exact Nat.le_trans (hgrow m tpage p _ htpage) (by omega)
  | case6 => exact Nat.le_trans htpage hp

/-! ## Chunks -/

/-- The value of hexadecimal digits. -/
def hexValue (ds : Bytes) : ℕ := ds.foldl (fun n d => 16 * n + digitVal d) 0

/-- A size: hexadecimal digits. -/
structure IsSize (digits : Bytes) (n : ℕ) : Prop where
  ne_nil : digits ≠ []
  hex : ∀ d ∈ digits, digitVal d < 16
  value : hexValue digits = n

/-- A chunk with data, and its size. -/
structure Chunk where
  digits : Bytes
  data : Bytes
  size : IsSize digits data.length
  data_ne : data ≠ []
  data_lt : data.length < 2 ^ 31

/-- A body: its chunks, the digits of the size zero, and what stands behind their line. -/
structure Chunked where
  chunks : List Chunk
  zero : Bytes
  size : IsSize zero 0
  trailer : Bytes

/-- The line with the size, the data and a line end. -/
def Chunk.bytes (c : Chunk) : Bytes := c.digits ++ (crlf ++ (c.data ++ crlf))

/-- The bytes of the chunks, the zero chunk and what follows. -/
def bodyOf (cs : List Chunk) (b : Chunked) : Bytes := cs.flatMap Chunk.bytes ++ (b.zero ++ (crlf ++ b.trailer))

/-- The bytes of a body. -/
def Chunked.body (b : Chunked) : Bytes := bodyOf b.chunks b

/-- The data of chunks. -/
def dataOf (cs : List Chunk) : Bytes := cs.flatMap Chunk.data

/-- The first line with a size. -/
def Chunked.firstLine (b : Chunked) : Bytes :=
  match b.chunks with
  | [] => b.zero ++ crlf
  | c :: _ => c.digits ++ crlf

/-- Digits are no white space, signs, line ends or an `x`. -/
theorem not_special {d : UInt8} (h : digitVal d < 16) :
    isSpace d = false ∧ d ≠ 45 ∧ d ≠ 43 ∧ d ≠ 120 ∧ d ≠ 88 ∧ d ≠ 13 ∧ d ≠ 0 := by
  revert h
  exact forall_byte (p := fun d => digitVal d < 16 →
    isSpace d = false ∧ d ≠ 45 ∧ d ≠ 43 ∧ d ≠ 120 ∧ d ≠ 88 ∧ d ≠ 13 ∧ d ≠ 0) (by decide +kernel) d

theorem IsSize.not_mem_cr {digits : Bytes} {n : ℕ} (h : IsSize digits n) : 13 ∉ digits :=
  fun hmem => (not_special (h.hex 13 hmem)).2.2.2.2.2.1 rfl

theorem IsSize.not_mem_nul {digits : Bytes} {n : ℕ} (h : IsSize digits n) : 0 ∉ digits :=
  fun hmem => (not_special (h.hex 0 hmem)).2.2.2.2.2.2 rfl

/-- A number that fits an `int` is stored as it is. -/
theorem toInt_of_lt {n : ℕ} (hn : n < 2 ^ 31) : (toULong (n : ℤ)).toUInt32.toInt32.toInt = n := by
  have hlt : n < UInt64.size := Nat.lt_trans hn (by decide)
  have hlong : toULong (n : ℤ) = UInt64.ofNat n := by
    have hsame := toULong_toNat (UInt64.ofNat n)
    rwa [UInt64.toNat_ofNat_of_lt' hlt] at hsame
  have hword : (UInt64.ofNat n).toUInt32.toNat = n := by
    rw [UInt64.toNat_toUInt32, UInt64.toNat_ofNat_of_lt' hlt]
    omega
  rw [hlong]
  generalize (UInt64.ofNat n).toUInt32 = w at hword
  have hbits : w.toInt32.toInt = (w.toNat : ℤ).bmod (2 ^ 32) := BitVec.toInt_eq_toNat_bmod w.toBitVec
  rw [hbits, hword]
  exact Int.bmod_eq_of_le (by omega) (by omega)

/-- **A size is read**, with a line end behind it or none. -/
theorem scanX_size {digits : Bytes} {n : ℕ} (h : IsSize digits n) (hn : n < 2 ^ 31) {r : Bytes}
    (hr : ∀ b ∈ r.head?, b = 13) : ∃ v, scanX (digits ++ r) = some v ∧ v.toInt = n := by
  obtain ⟨d, ds, hds⟩ := List.exists_cons_of_ne_nil h.ne_nil
  have hd := not_special (h.hex d (by rw [hds]; exact List.mem_cons_self))
  have hskip : skipSpace (digits ++ r) = digits ++ r := by
    rw [hds]
    exact skipSpace_of_head hd.1
  have hsign : scanSign (digits ++ r) = (false, digits ++ r) := by
    rw [hds, List.cons_append]
    unfold scanSign
    split
    · simp_all
    · simp_all
    · rfl
  have hnext : ∀ c ∈ (ds ++ r).head?, c ≠ 120 ∧ c ≠ 88 := by
    intro c hc
    cases ds with
    | nil =>
        rw [hr c hc]
        decide
    | cons e ds =>
        obtain rfl := Option.some.inj hc
        have he := not_special (h.hex e (by rw [hds]; simp))
        exact ⟨he.2.2.2.1, he.2.2.2.2.1⟩
  have hhex : hexPrefix (digits ++ r) = false := by
    rw [hds]
    exact hexPrefix_cons fun _ => hnext
  have htake : (digits ++ r).takeWhile (fun b => digitVal b < 16) = digits := by
    rw [List.takeWhile_append_of_pos (by simpa using h.hex)]
    cases r with
    | nil => rw [List.takeWhile_nil, List.append_nil]
    | cons b r =>
        rw [hr b rfl, List.takeWhile_cons_of_neg (by decide), List.append_nil]
  have hscan : scanBase 16 (digits ++ r) = some (n : ℤ) := by
    unfold scanBase
    rw [hskip, hsign]
    dsimp only
    rw [hhex, Bool.and_false, if_neg Bool.false_ne_true, htake, if_neg (fun hnil => h.ne_nil hnil.1),
      if_neg Bool.false_ne_true]
    exact congrArg (fun k : ℕ => some (k : ℤ)) h.value
  refine ⟨_, by rw [scanX, hscan, Option.map_some], ?_⟩
  exact toInt_of_lt hn

/-! ## The loop -/

/-- What stands behind the line of the next size. -/
def behindSize (cs : List Chunk) (b : Chunked) : Bytes :=
  match cs with
  | [] => b.trailer
  | c :: cs => c.data ++ (crlf ++ bodyOf cs b)

/-- The digits of the next size. -/
def nextSize (cs : List Chunk) (b : Chunked) : Bytes :=
  match cs with
  | [] => b.zero
  | c :: _ => c.digits

/-- The next size. -/
def nextCount (cs : List Chunk) : ℕ :=
  match cs with
  | [] => 0
  | c :: _ => c.data.length

theorem bodyOf_eq (cs : List Chunk) (b : Chunked) :
    bodyOf cs b = nextSize cs b ++ (crlf ++ behindSize cs b) := by
  cases cs with
  | nil => rfl
  | cons c cs => simp [bodyOf, nextSize, behindSize, Chunk.bytes]

theorem isSize_next (cs : List Chunk) (b : Chunked) : IsSize (nextSize cs b) (nextCount cs) := by
  cases cs with
  | nil => exact b.size
  | cons c cs => exact c.size

theorem nextCount_lt (cs : List Chunk) : nextCount cs < 2 ^ 31 := by
  cases cs with
  | nil => decide
  | cons c cs => exact c.data_lt

/-- The cells in front of the end of the page, and the end. -/
theorem peek_end {m : Mem UInt8} {old pos : ℕ} (hold : m old = 0) (hpos : pos ≤ old) :
    peek m pos (old + 1 - pos) = peek m pos (old - pos) ++ [0] := by
  have hsplit : old + 1 - pos = (old - pos) + 1 := by omega
  have hat : pos + (old - pos) = old := by omega
  rw [hsplit, peek_add, hat]
  simp [peek, hold]

/-- **The line end of a size** in a page that may be cut off: it is found behind the digits, or the page is cut off
in front of it. -/
theorem strstr_size {digits w r : Bytes} {n : ℕ} (h : IsSize digits n) (hw : w <+: digits ++ (crlf ++ r)) :
    (∃ w', w = digits ++ (crlf ++ w') ∧ w' <+: r ∧ strstr crlf (cstr (w ++ [0])) = some digits.length) ∨
      strstr crlf (cstr (w ++ [0])) = none ∧ w ≠ digits ++ (crlf ++ r) := by
  have hpair : ¬ crlf <:+: digits := by
    intro hinf
    exact h.not_mem_cr (hinf.subset List.mem_cons_self)
  by_cases hlen : digits.length + 2 ≤ w.length
  · left
    have hline : digits ++ crlf <+: w := by
      refine List.prefix_of_prefix_length_le ?_ hw (by rw [List.length_append]; exact hlen)
      rw [← List.append_assoc]
      exact List.prefix_append _ _
    obtain ⟨w', rfl⟩ := hline
    rw [← List.append_assoc, List.prefix_append_right_inj] at hw
    refine ⟨w', List.append_assoc _ _ _, hw, ?_⟩
    have hnul : ∀ b ∈ digits ++ crlf, (b != 0) = true := by
      intro b hb
      rw [bne_iff_ne]
      rintro rfl
      rcases List.mem_append.mp hb with hmem | hmem
      · exact h.not_mem_nul hmem
      · exact absurd hmem (by decide)
    have hcstr : cstr (digits ++ crlf ++ w' ++ [0]) = digits ++ 13 :: 10 :: cstr (w' ++ [0]) := by
      rw [cstr, List.append_assoc, List.takeWhile_append_of_pos hnul, List.append_assoc]
      rfl
    rw [hcstr]
    exact strstr_pair (by decide) hpair _
  · right
    have hcut : w <+: digits ++ [13] := by
      refine List.prefix_of_prefix_length_le hw ?_ (by rw [List.length_append, List.length_singleton]; omega)
      exact (List.prefix_append_right_inj digits).mpr ⟨10 :: r, rfl⟩
    have hnul : 0 ∉ w := by
      intro hmem
      rcases List.mem_append.mp (hcut.subset hmem) with hd | hd
      · exact h.not_mem_nul hd
      · exact absurd hd (by decide)
    constructor
    · rw [cstr_append_nul hnul, strstr_eq_none_iff]
      intro hinf
      have hall := hinf.trans hcut.isInfix
      rw [infix_append_iff_of_not_mem h.not_mem_cr] at hall
      exact absurd hall.length_le (by decide)
    · rintro rfl
      simp only [List.length_append, List.length_cons, List.length_nil] at hlen
      omega

/-- Cells that are a beginning of `a ++ r` and reach behind `a`. -/
theorem peek_prefix {m : Mem UInt8} {pos n : ℕ} {a r : Bytes} (hlen : a.length ≤ n)
    (h : peek m pos n <+: a ++ r) :
    peek m pos n = a ++ peek m (pos + a.length) (n - a.length) ∧
      peek m (pos + a.length) (n - a.length) <+: r := by
  have hsplit : peek m pos n = peek m pos a.length ++ peek m (pos + a.length) (n - a.length) := by
    rw [← peek_add, Nat.add_sub_of_le hlen]
  rw [hsplit] at h ⊢
  have hfirst : peek m pos a.length = a := by
    have hbegin : peek m pos a.length <+: a :=
      List.prefix_of_prefix_length_le ((List.prefix_append _ _).trans h) (List.prefix_append _ _)
        (Nat.le_of_eq (length_peek _ _ _))
    exact hbegin.eq_of_length (length_peek _ _ _)
  rw [hfirst] at h ⊢
  exact ⟨rfl, (List.prefix_append_right_inj a).mp h⟩

/-- The string at the line of a size, once the end of the line is overwritten. -/
theorem strAt_poke {digits : Bytes} {n : ℕ} (h : IsSize digits n) {m : Mem UInt8} {old pos : ℕ}
    (hpos : pos + digits.length ≤ old) (hw : peek m pos digits.length = digits) :
    strAt (poke m (pos + digits.length) [0]) old pos = digits := by
  have hsplit : old + 1 - pos = digits.length + ([(0 : UInt8)].length + (old - (pos + digits.length))) := by
    rw [List.length_singleton]
    omega
  rw [strAt, hsplit, peek_add, peek_poke_before _ _ (Nat.le_refl _), hw, peek_poke_front, List.singleton_append,
    cstr_append_nul h.not_mem_nul]

/-- **The line of the next size** in a page that may be cut off: its end is found and overwritten, and the size is
read, or the page is cut off in front of its end. -/
theorem sizeLine_cases (cs : List Chunk) (b : Chunked) {old pos : ℕ} {m : Mem UInt8} (hold : m old = 0)
    (hpos : pos < old) (hw : peek m pos (old - pos) <+: bodyOf cs b) :
    (∃ k size', strstr crlf (strAt m old pos) = some k ∧
      scanX (strAt (poke m (pos + k) [0]) old pos) = some size' ∧ size'.toInt = nextCount cs ∧
      poke m (pos + k) [0] old = 0 ∧ pos + k + 2 ≤ old ∧
      peek (poke m (pos + k) [0]) (pos + k + 2) (old - (pos + k + 2)) <+: behindSize cs b ∧
      (peek m pos (old - pos) = bodyOf cs b →
        peek (poke m (pos + k) [0]) (pos + k + 2) (old - (pos + k + 2)) = behindSize cs b)) ∨
    strstr crlf (strAt m old pos) = none ∧ peek m pos (old - pos) ≠ bodyOf cs b := by
  have hstr : strAt m old pos = cstr (peek m pos (old - pos) ++ [0]) := by
    rw [strAt, peek_end hold (Nat.le_of_lt hpos)]
  have hsize := isSize_next cs b
  rw [bodyOf_eq] at hw ⊢
  rw [hstr]
  rcases strstr_size hsize hw with ⟨w', heq, hw', hfound⟩ | hnone
  · left
    have htotal := congrArg List.length heq
    have htwo : crlf.length = 2 := rfl
    rw [length_peek, List.length_append, List.length_append, htwo] at htotal
    have hold' : poke m (pos + (nextSize cs b).length) [0] old = 0 := by
      rw [poke_singleton, Function.update_of_ne (by omega), hold]
    have hrest : old - (pos + (nextSize cs b).length + 2) = w'.length := by omega
    have hparts : old - pos = (nextSize cs b).length + (crlf.length + w'.length) := by omega
    rw [hparts, peek_add, peek_add] at heq
    obtain ⟨hdigits, hline⟩ := List.append_inj heq (length_peek _ _ _)
    obtain ⟨-, hbehind⟩ := List.append_inj hline (length_peek _ _ _)
    have hafter : peek (poke m (pos + (nextSize cs b).length) [0]) (pos + (nextSize cs b).length + 2)
        w'.length = w' := by
      rw [peek_poke_after _ _ (by rw [List.length_singleton]; omega)]
      exact hbehind
    obtain ⟨v, hscan, hv⟩ := @scanX_size _ _ hsize (nextCount_lt cs) [] nofun
    rw [List.append_nil] at hscan
    refine ⟨_, v, hfound, ?_, hv, hold', by omega, ?_, fun hall => ?_⟩
    · rw [strAt_poke hsize (by omega) hdigits, hscan]
    · rw [hrest, hafter]
      exact hw'
    · rw [hrest, hafter]
      rw [hparts, peek_add, peek_add, heq] at hall
      exact List.append_cancel_left (List.append_cancel_left hall)
  · exact Or.inr hnone

/-- **A chunk in the loop**: the loop goes on behind the line of the next size, or the page is cut off and a
beginning of the chunk is collected. -/
theorem chunkLoop_chunk (cs : List Chunk) (b : Chunked) (c : Chunk) {old p : ℕ} {m : Mem UInt8} (tpage : Bytes)
    {chunksize : Int32} (hsize : chunksize.toInt = c.data.length) (hold : m old = 0) (hp : p + 2 ≤ old)
    (hrest : peek m (p + 2) (old - (p + 2)) <+: c.data ++ (crlf ++ bodyOf cs b)) :
    (∃ m' p' size', chunkLoop old m tpage p chunksize = chunkLoop old m' (tpage ++ c.data) p' size' ∧
      size'.toInt = nextCount cs ∧ m' old = 0 ∧ p' + 2 ≤ old ∧
      peek m' (p' + 2) (old - (p' + 2)) <+: behindSize cs b ∧
      (peek m (p + 2) (old - (p + 2)) = c.data ++ (crlf ++ bodyOf cs b) →
        peek m' (p' + 2) (old - (p' + 2)) = behindSize cs b)) ∨
    ∃ s, (chunkLoop old m tpage p chunksize).2 = tpage ++ s ∧ s <+: c.data ∧
      peek m (p + 2) (old - (p + 2)) ≠ c.data ++ (crlf ++ bodyOf cs b) := by
  have hpos : 0 < c.data.length := List.length_pos_of_ne_nil c.data_ne
  have hn : chunksize.toInt.toNat = c.data.length := by omega
  have hlen : (peek m (p + 2) (old - (p + 2))).length = old - (p + 2) := length_peek _ _ _
  rw [chunkLoop, if_pos (by omega)]
  dsimp only
  rw [hn]
  by_cases hroom : p + 2 + c.data.length < old
  · rw [dif_pos hroom]
    -- the data of the chunk is all there
    obtain ⟨hall, hbehind⟩ := peek_prefix (by omega) hrest
    have hdata : peek m (p + 2) c.data.length = c.data := by
      have hsplit : old - (p + 2) = c.data.length + (old - (p + 2) - c.data.length) := by omega
      rw [hsplit, peek_add] at hall
      exact (List.append_inj hall (length_peek _ _ _)).1
    rw [hdata]
    by_cases hline : p + 2 + c.data.length + 2 < old
    · rw [if_pos hline]
      have htwo : crlf.length = 2 := rfl
      obtain ⟨hend, hnext⟩ := peek_prefix (by omega) hbehind
      have hat : old - (p + 2) - c.data.length - 2 = old - (p + 2 + c.data.length + 2) := by omega
      rw [htwo, hat] at hend hnext
      have hwhole : peek m (p + 2) (old - (p + 2)) = c.data ++ (crlf ++ bodyOf cs b) →
          peek m (p + 2 + c.data.length + 2) (old - (p + 2 + c.data.length + 2)) = bodyOf cs b := by
        intro h
        rw [hall, hend] at h
        exact List.append_cancel_left (List.append_cancel_left h)
      rcases sizeLine_cases cs b hold hline hnext with
        ⟨k, size', hfound, hscan, hcount, hold', hk, hrest', hall'⟩ | ⟨hnone, hcut⟩
      · rw [hfound]
        dsimp only
        rw [hscan]
        exact Or.inl ⟨_, _, size', rfl, hcount, hold', hk, hrest', fun h => hall' (hwhole h)⟩
      · rw [hnone]
        exact Or.inr ⟨c.data, rfl, List.prefix_refl _, fun h => hcut (hwhole h)⟩
    · rw [if_neg hline]
      refine Or.inr ⟨c.data, rfl, List.prefix_refl _, fun hall => ?_⟩
      have htotal := congrArg List.length hall
      rw [hlen, List.length_append, List.length_append, bodyOf_eq, List.length_append, List.length_append] at htotal
      have htwo : crlf.length = 2 := rfl
      omega
  · rw [dif_neg hroom]
    refine Or.inr ⟨_, rfl, List.prefix_of_prefix_length_le hrest (List.prefix_append _ _) (by omega), fun hall => ?_⟩
    have htotal := congrArg List.length hall
    rw [hlen, List.length_append, List.length_append] at htotal
    have htwo : crlf.length = 2 := rfl
    omega

/-- **What the loop collects** of a page that may be cut off: a beginning of the data, and all of it if the page is
whole. -/
theorem chunkLoop_spec (cs : List Chunk) (b : Chunked) (c : Chunk) {old p : ℕ} {m : Mem UInt8} (tpage : Bytes)
    {chunksize : Int32} (hsize : chunksize.toInt = c.data.length) (hold : m old = 0) (hp : p + 2 ≤ old)
    (hrest : peek m (p + 2) (old - (p + 2)) <+: c.data ++ (crlf ++ bodyOf cs b)) :
    ∃ s, (chunkLoop old m tpage p chunksize).2 = tpage ++ s ∧ s <+: dataOf (c :: cs) ∧
      (peek m (p + 2) (old - (p + 2)) = c.data ++ (crlf ++ bodyOf cs b) → s = dataOf (c :: cs)) := by
  have hfirst : c.data <+: dataOf (c :: cs) := List.prefix_append _ _
  induction cs generalizing c p m tpage chunksize with
  | nil =>
      rcases chunkLoop_chunk [] b c tpage hsize hold hp hrest with
        ⟨m', p', size', hloop, hzero, -⟩ | ⟨s, hs, hbegin, hcut⟩
      · have hstop : ¬ 0 < size'.toInt := by
          rw [hzero]
          decide
        rw [hloop, chunkLoop, if_neg hstop]
        have hall : dataOf [c] = c.data := List.append_nil _
        exact ⟨c.data, rfl, hfirst, fun _ => hall.symm⟩
      · exact ⟨s, hs, hbegin.trans hfirst, fun hall => absurd hall hcut⟩
  | cons c' cs ih =>
      rcases chunkLoop_chunk (c' :: cs) b c tpage hsize hold hp hrest with
        ⟨m', p', size', hloop, hcount, hold', hp', hrest', hwhole⟩ | ⟨s, hs, hbegin, hcut⟩
      · obtain ⟨s, hs, hbegin, hall⟩ := ih c' (tpage ++ c.data) hcount hold' hp' hrest' (List.prefix_append _ _)
        rw [hloop, hs]
        refine ⟨c.data ++ s, List.append_assoc _ _ _, (List.prefix_append_right_inj _).mpr hbegin, fun h => ?_⟩
        rw [hall (hwhole h)]
        rfl
      · exact ⟨s, hs, hbegin.trans hfirst, fun hall => absurd hall hcut⟩

/-! ## The page -/

theorem firstLine_eq (b : Chunked) : b.firstLine = nextSize b.chunks b ++ crlf := by
  unfold Chunked.firstLine nextSize
  cases b.chunks <;> rfl

/-- The string of a page that has a first line with a size. -/
theorem strAt_firstLine {b : Chunked} {text : Bytes} (hfirst : b.firstLine <+: text) {m : Mem UInt8}
    (hm : peek m 0 (text.length + 1) = text ++ [0]) :
    ∃ r, strAt m text.length 0 = nextSize b.chunks b ++ 13 :: 10 :: r := by
  obtain ⟨w, rfl⟩ := hfirst
  have hsize := isSize_next b.chunks b
  have hnul : ∀ c ∈ nextSize b.chunks b ++ crlf, (c != 0) = true := by
    intro c hc
    rw [bne_iff_ne]
    rintro rfl
    rcases List.mem_append.mp hc with hmem | hmem
    · exact hsize.not_mem_nul hmem
    · exact absurd hmem (by decide)
  refine ⟨cstr (w ++ [0]), ?_⟩
  rw [strAt, Nat.sub_zero, hm, firstLine_eq, cstr, List.append_assoc, List.takeWhile_append_of_pos hnul,
    List.append_assoc]
  rfl

/-- **What both functions leave in the page**: of a page that is cut off behind its first line a beginning of the
data, and of a whole page all of it. -/
theorem chunkpage_prefix (b : Chunked) {text : Bytes} (htext : text <+: b.body) (hfirst : b.firstLine <+: text)
    (hlen : text.length < maxPage) {m : Mem UInt8} (hm : peek m 0 (text.length + 1) = text ++ [0]) :
    ∃ s, s <+: dataOf b.chunks ∧ (text = b.body → s = dataOf b.chunks) ∧
      (chunkpage m text.length).1 = s.length ∧
      peek (chunkpage m text.length).2 0 (s.length + 1) = s ++ [0] ∧
      chunkpageNew true m text.length = chunkpage m text.length := by
  have hpage : chunkpage m text.length = dechunk m text.length := if_neg (Nat.not_le.mpr hlen)
  have hnew : chunkpageNew true m text.length = dechunk m text.length := if_pos rfl
  have hsize := isSize_next b.chunks b
  have htwo : crlf.length = 2 := rfl
  have hpos : 0 < text.length := by
    have hle := hfirst.length_le
    rw [firstLine_eq, List.length_append] at hle
    omega
  obtain ⟨r, hstr⟩ := strAt_firstLine hfirst hm
  obtain ⟨v, hscan, hv⟩ := @scanX_size _ _ hsize (nextCount_lt b.chunks) (13 :: 10 :: r)
    fun c hc => (Option.some.inj hc).symm
  rw [← hstr] at hscan
  obtain ⟨hcells, hend⟩ := peek_append (a := text) (b := [0]) (by rw [List.length_append]; exact hm)
  have hold : m text.length = 0 := by
    have hcell := congrArg List.head? hend
    simpa [peek] using hcell
  rw [hpage, hnew]
  suffices hloop : ∃ p, strstr crlf (strAt m text.length 0) = some p ∧
      (chunkLoop text.length (poke m p [0]) [] p v).2 <+: dataOf b.chunks ∧
      (text = b.body → (chunkLoop text.length (poke m p [0]) [] p v).2 = dataOf b.chunks) by
    obtain ⟨p, hfound, hbegin, hall⟩ := hloop
    have hdechunk : dechunk m text.length = ((chunkLoop text.length (poke m p [0]) [] p v).2.length,
        poke (chunkLoop text.length (poke m p [0]) [] p v).1 0
          ((chunkLoop text.length (poke m p [0]) [] p v).2 ++ [0])) := by
      rw [dechunk, hscan]
      dsimp only
      rw [hfound]
    refine ⟨_, hbegin, hall, ?_, ?_, rfl⟩
    · rw [hdechunk]
    · rw [hdechunk]
      have hself := peek_poke_self (chunkLoop text.length (poke m p [0]) [] p v).1 0
        ((chunkLoop text.length (poke m p [0]) [] p v).2 ++ [0])
      rwa [List.length_append] at hself
  rcases sizeLine_cases b.chunks b hold hpos (by rw [Nat.sub_zero, hcells]; exact htext) with
    ⟨k, size', hfound, -, -, hold', hk, hrest, hwhole⟩ | ⟨hnone, -⟩
  · refine ⟨k, hfound, ?_⟩
    rw [Nat.zero_add] at hold' hk hrest hwhole
    rw [Nat.sub_zero, hcells] at hwhole
    have hbody : b.body = bodyOf b.chunks b := rfl
    rw [hbody]
    cases hcs : b.chunks with
    | nil =>
        rw [hcs] at hv
        have hstop : ¬ 0 < v.toInt := by
          rw [hv]
          decide
        rw [chunkLoop, if_neg hstop]
        exact ⟨List.prefix_refl _, fun _ => rfl⟩
    | cons c cs =>
        rw [hcs] at hv hrest hwhole
        obtain ⟨s, hs, hbegin, hall⟩ := chunkLoop_spec cs b c [] hv hold' hk hrest
        rw [hs, List.nil_append]
        exact ⟨hbegin, fun h => hall (hwhole h)⟩
  · rw [strstr_eq_none_iff, hstr] at hnone
    exact absurd ⟨nextSize b.chunks b, r, by simp⟩ hnone

/-- A page with a chunk and a cut in the line end of the second size. -/
theorem chunkpage_prefix_cut : ∃ s, s <+: ascii "abc" ∧
    (chunkpage (ofList (ascii "2\r\nab\r\n1\r" ++ [0]) fun _ => 0) (ascii "2\r\nab\r\n1\r").length).1 =
      s.length := by
  let first : Chunk := ⟨ascii "2", ascii "ab", ⟨by decide, by decide +kernel, by decide⟩, by decide, by decide⟩
  let second : Chunk := ⟨ascii "1", ascii "c", ⟨by decide, by decide +kernel, by decide⟩, by decide, by decide⟩
  let b : Chunked := ⟨[first, second], ascii "0", ⟨by decide, by decide +kernel, by decide⟩, crlf⟩
  have hm : peek (ofList (ascii "2\r\nab\r\n1\r" ++ [0]) fun _ => 0) 0 ((ascii "2\r\nab\r\n1\r").length + 1) =
      ascii "2\r\nab\r\n1\r" ++ [0] := by decide
  have hcut : ascii "2\r\nab\r\n1\r" <+: b.body := by decide
  obtain ⟨s, hs, -, hret, -⟩ := chunkpage_prefix b hcut (by decide) (by decide) hm
  exact ⟨s, hs, hret⟩

end Asenal.Http
