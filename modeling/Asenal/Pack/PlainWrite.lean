import Asenal.Pack.Frame

/-!
# The two writers without a time limit

`ul_pack_write` prints the head into an array of 26000 bytes, and `ul_pack_write_m` into memory that it
allocates for the whole frame, unless there is none. Both add up what `snprintf` returns, the length of the
whole text, and pass the size of the destination less this sum; in `ul_pack_write_m` the size is that of a
pointer. Each function comes with a record of what it passes to `snprintf` for the head.

* `ulPackWrite`, `ulPackWriteM` — the two writers.
* `plainWriters_safe_iff` — when they stay within their destinations; `plainWriters_overrun` — two packages
  for which they do not.
-/

namespace Asenal.Pack

open Asenal.Lib.Text Asenal.Lib.Memory Asenal.Lib.CString

/-! ## Printing the head -/

/-- A call of `snprintf`: the size of the destination, where the text goes and the size that is passed, and
the length that is returned. -/
structure Print where
  capacity : ℕ
  pos : ℕ
  size : ℕ
  len : ℕ

/-- The size is no larger than the space that is left, and the offset behind the text is within the
destination. -/
def Print.Safe (a : Print) : Prop := a.pos + a.size ≤ a.capacity ∧ a.pos + a.len ≤ a.capacity

/-- `sizeof(dest) - pos`, as `size_t`. -/
def leftOf (sizeofDest pos : ℕ) : ℕ := (((sizeofDest : ℤ) - pos) % 2 ^ 64).toNat

/-- The text at `pos` in a destination. -/
def printAt (capacity sizeofDest : ℕ) (buf : Mem UInt8) (pos : ℕ) (text : Bytes) : Print × Mem UInt8 :=
  (⟨capacity, pos, leftOf sizeofDest pos, text.length⟩, snprintf buf pos (leftOf sizeofDest pos) text)

/-- The loop over the pairs: the calls, the destination, and the offset behind the lines. What `snprintf`
returns is never 0, which `ul_pack_write_m` looks for. -/
def printPairs (capacity sizeofDest : ℕ) :
    List (Bytes × Bytes) → Mem UInt8 → ℕ → List Print × Mem UInt8 × ℕ
  | [], buf, pos => ([], buf, pos)
  | (n, v) :: l, buf, pos =>
      if n ≠ [] then
        let a := printAt capacity sizeofDest buf pos (pairText n v)
        let r := printPairs capacity sizeofDest l a.2 (pos + (pairText n v).length)
        (a.1 :: r.1, r.2)
      else printPairs capacity sizeofDest l buf pos

/-- The lines of the pairs and the empty line. -/
def printHead (capacity sizeofDest : ℕ) (l : List (Bytes × Bytes)) (buf : Mem UInt8) (pos : ℕ) :
    List Print × Mem UInt8 × ℕ :=
  let r := printPairs capacity sizeofDest l buf pos
  let a := printAt capacity sizeofDest r.2.1 r.2.2 crlf
  (r.1 ++ [a.1], a.2, r.2.2 + crlf.length)

/-! ## The writers -/

/-- Source: `dep/dep_pack.cpp` `ul_pack_writeall`; a call that is interrupted is made again. -/
def ulPackWriteall (s : OutSock) (buf : Bytes) (n : ℤ) : ℤ × OutSock :=
  if n ≤ 0 then (n, s)
  else
    let r := writeall s.fails s.takes buf
    (if r.1 then n else -1, ⟨s.sent ++ r.2.1, r.2.2, s.fails⟩)

/-- `junk` is what the array holds at first. Source: `dep/dep_pack.cpp` `ul_pack_write`. -/
def ulPackWrite (junk : Mem UInt8) (s : OutSock) (p : UlPackage) : List Print × ℤ × OutSock :=
  let h := printHead maxHeadSize maxHeadSize p.pairs (poke junk 0 [0]) 0
  let headsize := h.2.2
  let r := ulPackWriteall s (sizeField (sizeText headsize p.bufsize)) sizeNum
  if r.1 ≠ (sizeNum : ℤ) then (h.1, -1, r.2)
  else
    let r := ulPackWriteall r.2 (peek h.2.1 0 headsize) headsize
    if r.1 ≠ (headsize : ℤ) then (h.1, -1, r.2)
    -- `write` fails on the address of a body that is not in memory
    else if p.buf.isNone ∧ 0 < p.bufsize then (h.1, -1, r.2)
    else
      let r := ulPackWriteall r.2 p.body p.bufsize.toInt
      if r.1 ≠ p.bufsize.toInt then (h.1, -1, r.2)
      else
        let r := ulPackWriteall r.2 bufEof bufEof.length
        if r.1 ≠ (bufEof.length : ℤ) then (h.1, -1, r.2) else (h.1, 0, r.2)

/-- `tmpbuf_size`. -/
def tmpbufSize (p : UlPackage) : Int32 := Int32.ofInt (sizeNum + maxHeadSize + p.bufsize.toInt + 20)

/-- The number of bytes that are allocated. -/
def tmpbufCapacity (p : UlPackage) : ℕ := ((tmpbufSize p).toInt % 2 ^ 64).toNat

/-- `sizeof(tmpbuf)`: the size of a pointer. -/
def sizeofTmpbuf : ℕ := 8

/-- `tmpbuf` is what `malloc` returns. Source: `dep/dep_pack.cpp` `ul_pack_write_m`. -/
def ulPackWriteM (junk : Mem UInt8) (tmpbuf : Option (Mem UInt8)) (s : OutSock) (p : UlPackage) :
    List Print × ℤ × OutSock :=
  match tmpbuf with
  | none => ulPackWrite junk s p
  | some tmpbuf =>
      let h := printHead (tmpbufCapacity p) sizeofTmpbuf p.pairs tmpbuf sizeNum
      let curpos := h.2.2
      let headsize := curpos - sizeNum
      if maxHeadSize ≤ headsize then (h.1, -1, s)
      else
        let line := sizeText headsize p.bufsize
        if sizeNum < line.length then (h.1, -1, s)
        else if line.length < sizeNum - 1 then
          let tmpbuf := poke h.2.1 0 (sizeField line)
          if sizeNum + maxHeadSize < curpos then (h.1, -1, s)
          else if p.bufsize ≠ 0 ∧ p.buf.isNone then (h.1, -1, s)
          else
            let tmpbuf := poke tmpbuf curpos p.body
            let curpos := curpos + p.body.length
            let tmpbuf := poke tmpbuf curpos bufEof
            let curpos := curpos + bufEof.length
            let r := ulPackWriteall s (peek tmpbuf 0 curpos) curpos
            (h.1, if r.1 ≠ (curpos : ℤ) then -1 else 0, r.2)
        else (h.1, -1, s)

/-! ## What is passed to `snprintf` -/

/-- The calls for the head in both functions, whatever is sent. -/
theorem ulPackWrite_prints (junk : Mem UInt8) (s : OutSock) (p : UlPackage) :
    (ulPackWrite junk s p).1 = (printHead maxHeadSize maxHeadSize p.pairs (poke junk 0 [0]) 0).1 := by
  unfold ulPackWrite
  dsimp only
  split_ifs <;> rfl

theorem ulPackWriteM_prints (junk tmpbuf : Mem UInt8) (s : OutSock) (p : UlPackage) :
    (ulPackWriteM junk (some tmpbuf) s p).1 =
      (printHead (tmpbufCapacity p) sizeofTmpbuf p.pairs tmpbuf sizeNum).1 := by
  unfold ulPackWriteM
  dsimp only
  split_ifs <;> rfl

/-- The offset behind the lines of the pairs. -/
theorem printPairs_pos (capacity sizeofDest : ℕ) (l : List (Bytes × Bytes)) (buf : Mem UInt8) (pos : ℕ) :
    (printPairs capacity sizeofDest l buf pos).2.2 = pos + (pairsText l).length := by
  induction l generalizing buf pos with
  | nil => rfl
  | cons x l ih =>
      obtain ⟨n, v⟩ := x
      rw [printPairs, pairsText_cons]
      by_cases hn : n = []
      · rw [if_neg (not_not.mpr hn), ih, if_pos hn, List.nil_append]
      · rw [if_pos hn, if_neg hn, List.length_append, ← Nat.add_assoc]
        exact ih _ _

/-- **Each call** is for the destination, passes its size less the offset, and its text ends at the offset
behind all lines or before it. -/
theorem mem_printPairs {capacity sizeofDest : ℕ} {l : List (Bytes × Bytes)} {buf : Mem UInt8} {pos : ℕ}
    {a : Print} (ha : a ∈ (printPairs capacity sizeofDest l buf pos).1) :
    a.capacity = capacity ∧ a.size = leftOf sizeofDest a.pos ∧ a.pos + a.len ≤ pos + (pairsText l).length := by
  induction l generalizing buf pos with
  | nil => exact absurd ha List.not_mem_nil
  | cons x l ih =>
      obtain ⟨n, v⟩ := x
      rw [printPairs] at ha
      rw [pairsText_cons]
      by_cases hn : n = []
      · rw [if_neg (not_not.mpr hn)] at ha
        rw [if_pos hn, List.nil_append]
        exact ih ha
      · rw [if_pos hn] at ha
        rw [if_neg hn, List.length_append, ← Nat.add_assoc]
        rcases List.mem_cons.mp ha with rfl | ha
        · exact ⟨rfl, rfl, Nat.le_add_right _ _⟩
        · exact ih ha

/-- **The last call** is the one for the empty line. -/
theorem last_mem_printHead (capacity sizeofDest : ℕ) (l : List (Bytes × Bytes)) (buf : Mem UInt8) (pos : ℕ) :
    (⟨capacity, pos + (pairsText l).length, leftOf sizeofDest (pos + (pairsText l).length), crlf.length⟩ :
      Print) ∈ (printHead capacity sizeofDest l buf pos).1 := by
  rw [printHead, ← printPairs_pos capacity sizeofDest l buf pos]
  exact List.mem_append_right _ (List.mem_singleton_self _)

/-- Within the destination the size that is passed is the space that is left. -/
theorem add_leftOf {sizeofDest pos : ℕ} (h : pos ≤ sizeofDest) (hlt : sizeofDest < 2 ^ 64) :
    pos + leftOf sizeofDest pos = sizeofDest := by
  rw [leftOf, Int.emod_eq_of_lt (by omega) (by omega)]
  omega

/-- Behind the size that is meant to be the destination's, the size that is passed is almost `2 ^ 64`. -/
theorem add_leftOf_of_lt {sizeofDest pos : ℕ} (h : sizeofDest < pos) (hlt : pos < 2 ^ 64) :
    pos + leftOf sizeofDest pos = 2 ^ 64 + sizeofDest := by
  have hmod : ((sizeofDest : ℤ) - pos) % 2 ^ 64 = 2 ^ 64 + sizeofDest - pos := by omega
  rw [leftOf, hmod]
  omega

/-! ## The main result -/

/-- **The head in the array**: all calls are safe exactly when the head is no longer than the array. -/
theorem ulPackWrite_safe_iff (junk : Mem UInt8) (s : OutSock) (p : UlPackage) :
    (∀ a ∈ (ulPackWrite junk s p).1, a.Safe) ↔ p.headsize ≤ maxHeadSize := by
  have hsize : maxHeadSize < 2 ^ 64 := by decide
  have hcrlf : crlf.length = 2 := rfl
  rw [ulPackWrite_prints, p.headsize_eq]
  constructor
  · intro h
    have hlast := (h _ (last_mem_printHead maxHeadSize maxHeadSize p.pairs (poke junk 0 [0]) 0)).2
    dsimp only at hlast
    omega
  · intro h a ha
    rcases List.mem_append.mp ha with ha | ha
    · obtain ⟨hcap, hleft, hend⟩ := mem_printPairs ha
      unfold Print.Safe
      rw [hcap, hleft, add_leftOf (by omega) hsize]
      omega
    · obtain rfl := List.mem_singleton.mp ha
      unfold Print.Safe printAt
      dsimp only
      rw [printPairs_pos, add_leftOf (by omega) hsize]
      omega

/-- **The head in allocated memory**: the call for the empty line is never safe. -/
theorem ulPackWriteM_unsafe (junk tmpbuf : Mem UInt8) (s : OutSock) (p : UlPackage) :
    ¬ ∀ a ∈ (ulPackWriteM junk (some tmpbuf) s p).1, a.Safe := by
  intro h
  rw [ulPackWriteM_prints] at h
  have hlast := h _ (last_mem_printHead (tmpbufCapacity p) sizeofTmpbuf p.pairs tmpbuf sizeNum)
  have hcap : tmpbufCapacity p < 2 ^ 64 := by
    unfold tmpbufCapacity
    omega
  obtain ⟨hspace, hend⟩ := hlast
  dsimp only at hspace hend
  have hpos : sizeofTmpbuf < sizeNum + (pairsText p.pairs).length :=
    Nat.lt_of_lt_of_le (by decide) (Nat.le_add_right _ _)
  rw [add_leftOf_of_lt hpos (by omega)] at hspace
  omega

/-- **The two writers** stay within their destinations exactly when the head is no longer than the array and
there is no memory for `ul_pack_write_m`, which is `ul_pack_write` then; the latter by itself does so
exactly when the head is no longer than the array. -/
theorem plainWriters_safe_iff (junk : Mem UInt8) (tmpbuf : Option (Mem UInt8)) (s : OutSock)
    (p : UlPackage) :
    ((∀ a ∈ (ulPackWrite junk s p).1, a.Safe) ↔ p.headsize ≤ maxHeadSize) ∧
      (((∀ a ∈ (ulPackWrite junk s p).1, a.Safe) ∧ ∀ a ∈ (ulPackWriteM junk tmpbuf s p).1, a.Safe) ↔
        p.headsize ≤ maxHeadSize ∧ tmpbuf = none) := by
  refine ⟨ulPackWrite_safe_iff junk s p, ?_⟩
  cases tmpbuf with
  | none =>
      rw [show ulPackWriteM junk none s p = ulPackWrite junk s p from rfl, and_self, ulPackWrite_safe_iff]
      exact (and_iff_left rfl).symm
  | some tmpbuf =>
      refine iff_of_false (fun h => ulPackWriteM_unsafe junk tmpbuf s p h.2) fun h => ?_
      exact Option.some_ne_none tmpbuf h.2

/-- Thirteen pairs with values as long as they can be. -/
def longPackage : UlPackage :=
  { ulPackInit with
    name := fun i => [97 + i.toUInt8]
    value := fun _ => List.replicate 2047 98
    pairnum := 13 }

/-- Each of its lines has 2053 bytes. -/
theorem length_longPackage : (pairsText longPackage.pairs).length = 13 * 2053 := by
  have hline : ∀ x ∈ longPackage.pairs, (if x.1 = [] then [] else pairText x.1 x.2).length = 2053 := by
    intro x hx
    obtain ⟨i, -, rfl⟩ := mem_slots.mp hx
    have hne : longPackage.name i ≠ [] := List.cons_ne_nil _ _
    have hname : (longPackage.name i).length = 1 := rfl
    have hvalue : (longPackage.value i).length = 2047 := List.length_replicate
    dsimp only
    rw [if_neg hne, pairText, List.length_append, List.length_append, List.length_append, hname, hvalue]
    rfl
  rw [pairsText, List.length_flatMap, List.map_congr_left hline, List.map_const', List.sum_replicate]
  rfl

/-- The head of thirteen long values is longer than the array, and an empty package is enough for the
allocated memory. -/
theorem plainWriters_overrun :
    longPackage.WellFormed ∧ ¬ (∀ a ∈ (ulPackWrite (fun _ => 0) ⟨[], [], false⟩ longPackage).1, a.Safe) ∧
      ulPackInit.WellFormed ∧
      ¬ ∀ a ∈ (ulPackWriteM (fun _ => 0) (some fun _ => 0) ⟨[], [], false⟩ ulPackInit).1, a.Safe := by
  refine ⟨⟨by decide, fun x hx => ?_, by decide, fun _ => rfl⟩, ?_,
    ⟨by decide, fun x hx => ?_, by decide, fun _ => rfl⟩, ulPackWriteM_unsafe _ _ _ _⟩
  · obtain ⟨i, hi, rfl⟩ := mem_slots.mp hx
    refine ⟨⟨?_, show 1 < maxItemSize by decide⟩, ⟨?_, ?_⟩⟩
    · have hname : ∀ i < 13, (0 : UInt8) ∉ longPackage.name i := by decide
      exact hname i hi
    · exact fun hmem => absurd (List.eq_of_mem_replicate hmem) (by decide)
    · exact Nat.lt_of_le_of_lt (Nat.le_of_eq List.length_replicate) (by decide)
  · rw [ulPackWrite_safe_iff, UlPackage.headsize_eq, length_longPackage]
    decide
  · exact absurd hx List.not_mem_nil

end Asenal.Pack
