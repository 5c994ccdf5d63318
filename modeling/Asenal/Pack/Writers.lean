import Asenal.Pack.Frame

/-!
# The three writers

`ul_pack_writeo_ms` sends a package in four parts from a head buffer of fixed size.
`ul_pack_write_mo_ms` and `ul_pack_serialization` build the whole frame in allocated memory and
send it, or copy it to a destination; that part is the same code in both (`fill`).

* `writeo_spec` — what `ul_pack_writeo_ms` sends when the head fits: the frame, except that a
  head of exactly 26000 bytes loses its last byte.
* `writeo_of_gt` — it fails when the head does not fit.
* `fill_spec`, `fill_of_gt` — the same for the other two, where a size line of 19 or more bytes
  is a failure, too.

Lengths of texts are natural numbers; the sizes that the source computes in `int` wrap around.
-/

namespace Asenal.Pack

open Asenal.Lib.Text Asenal.Lib.Memory Asenal.Lib.CString

/-! ## Writing in parts -/

/-- The loop of `ul_pack_writeo_ms` over the pairs: the head buffer and `headsize`, or `none`
when the head is too long. -/
def writeoPairs : List (Bytes × Bytes) → Mem UInt8 → ℕ → Option (Mem UInt8 × ℕ)
  | [], headbuf, headsize => some (headbuf, headsize)
  | (n, v) :: l, headbuf, headsize =>
      if n ≠ [] then
        let headbuf := snprintf headbuf headsize (maxHeadSize - headsize) (pairText n v)
        let headsize := headsize + (pairText n v).length
        if maxHeadSize < headsize then none else writeoPairs l headbuf headsize
      else if maxHeadSize < headsize then none else writeoPairs l headbuf headsize

/-- Reading the body faults: it is not in memory. -/
def UlPackage.bodyFaults (p : UlPackage) : Bool :=
  p.bufsize < 0 || (p.buf.isNone && p.bufsize != 0)

/-- Send a package in four parts; `junk` is what the head buffer holds at first. Source:
`ul_pack.cpp` `ul_pack_writeo_ms`. -/
def ulPackWriteoMs (junk : Mem UInt8) (s : OutSock) (p : UlPackage) : ℤ × OutSock :=
  match writeoPairs p.pairs (poke junk 0 [0]) 0 with
  | none => (-2, s)
  | some (headbuf, headsize) =>
      let headbuf := snprintf headbuf headsize (maxHeadSize - headsize) crlf
      let headsize := headsize + crlf.length
      if maxHeadSize < headsize then (-2, s)
      else
        let r := ulPackWritealloMs s (sizeField (sizeText headsize p.bufsize))
        if r.1 ≠ (sizeNum : ℤ) then (-1, r.2)
        else
          let r := ulPackWritealloMs r.2 (peek headbuf 0 headsize)
          if r.1 ≠ (headsize : ℤ) then (-1, r.2)
          -- `write` fails on the address of a body that is not in memory
          else if p.bodyFaults then (-1, r.2)
          else
            let r := ulPackWritealloMs r.2 p.body
            if r.1 ≠ p.bufsize.toInt then (-1, r.2)
            else
              let r := ulPackWritealloMs r.2 bufEof
              if r.1 ≠ (bufEof.length : ℤ) then (-1, r.2) else (0, r.2)

/-! ## Writing into allocated memory -/

/-- `malloc` as one call meets it: the sizes for which it gives memory. As a `size_t` none of them
is larger than a `ptrdiff_t`. -/
structure Malloc where
  /-- `malloc` of this many bytes is not `NULL`. -/
  grants : ℤ → Bool
  /-- No object has 2^63 bytes or more. -/
  bounded : ∀ size, grants size = true → size % 2 ^ 64 < 2 ^ 63

/-- Memory that is never short. -/
def Malloc.plenty : Malloc where
  grants size := size % 2 ^ 64 < 2 ^ 63
  bounded _ h := of_decide_eq_true h

/-- `maxlen - curpos` as `size_t`. -/
def room (maxlen : Int32) (curpos : ℕ) : ℕ := ((maxlen.toInt - curpos) % 2 ^ 64).toNat

/-- The loop over the pairs: the buffer and `curpos`, or `none` on failure. -/
def fillPairs (maxlen : Int32) : List (Bytes × Bytes) → Mem UInt8 → ℕ → Option (Mem UInt8 × ℕ)
  | [], tmpbuf, curpos => some (tmpbuf, curpos)
  | (n, v) :: l, tmpbuf, curpos =>
      if n ≠ [] then
        let tmpbuf := snprintf tmpbuf curpos (room maxlen curpos) (pairText n v)
        if (Int32.ofInt (maxlen.toInt - curpos)).toInt ≤ (pairText n v).length then none
        else
          let curpos := curpos + (pairText n v).length
          if maxHeadSize < curpos - sizeNum then none else fillPairs maxlen l tmpbuf curpos
      else fillPairs maxlen l tmpbuf curpos

/-- Build a frame in `tmpbuf`: the buffer and the length of the frame, or `none` on failure.
Source: `ul_pack.cpp` `ul_pack_write_mo_ms` and `ul_pack_serialization`, from the assignment
`curpos = SIZE_NUM` to the copy of `BUF_EOF`. -/
def fill (maxlen : Int32) (tmpbuf : Mem UInt8) (p : UlPackage) : Option (Mem UInt8 × ℕ) :=
  match fillPairs maxlen p.pairs tmpbuf sizeNum with
  | none => none
  | some (tmpbuf, curpos) =>
      let tmpbuf := snprintf tmpbuf curpos (room maxlen curpos) crlf
      let curpos := curpos + crlf.length
      let headsize := curpos - sizeNum
      if maxHeadSize < headsize then none
      else
        let line := sizeText headsize p.bufsize
        if sizeNum ≤ line.length then none
        else if line.length < sizeNum - 1 then
          let tmpbuf := poke tmpbuf 0 (sizeField line)
          if sizeNum + maxHeadSize < curpos then none
          else if p.bufsize ≠ 0 ∧ p.buf.isNone then none
          else
            let tmpbuf := poke tmpbuf curpos p.body
            let curpos := curpos + p.body.length
            some (poke tmpbuf curpos bufEof, curpos + bufEof.length)
        else none

/-- `SIZE_NUM + MAX_HEAD_SIZE + ppack->bufsize + 20UL`: the first sum is an `int`, the second is
not. -/
def allocLen (p : UlPackage) : ℤ :=
  (Int32.ofInt (sizeNum + maxHeadSize + p.bufsize.toInt)).toInt + 20

/-- The same in an `int`. -/
def maxLen (p : UlPackage) : Int32 := Int32.ofInt (allocLen p)

/-- Send a package at once; `junk` is what fresh memory holds. Source: `ul_pack.cpp`
`ul_pack_write_mo_ms`. -/
def ulPackWriteMoMs (malloc : Malloc) (junk : Mem UInt8) (s : OutSock) (p : UlPackage) :
    ℤ × OutSock :=
  if malloc.grants (allocLen p) then
    match fill (maxLen p) junk p with
    | none => (-1, s)
    | some (tmpbuf, curpos) =>
        let r := ulPackWritealloMs s (peek tmpbuf 0 curpos)
        if r.1 ≠ (curpos : ℤ) then (-1, r.2) else (0, r.2)
  else ulPackWriteoMs junk s p

/-- Store a package at `buf`, of `bufsize` bytes; `junk` is what fresh memory holds. Source:
`ul_pack.cpp` `ul_pack_serialization`. -/
def ulPackSerialization (malloc : Malloc) (junk buf : Mem UInt8) (bufsize : Int32)
    (p : UlPackage) : ℤ × Mem UInt8 :=
  if bufsize ≤ 0 then (-1, buf)
  else if malloc.grants (maxLen p).toInt then
    match fill (maxLen p) junk p with
    | none => (-1, buf)
    | some (tmpbuf, curpos) =>
        if bufsize.toInt ≤ (curpos : ℤ) then (-1, buf)
        else ((curpos : ℤ), poke buf 0 (peek tmpbuf 0 curpos))
  else (-1, buf)

/-! ## What is sent in parts -/

/-- When the loop over the pairs succeeds, `headsize` has grown by the length of their lines. -/
theorem writeoPairs_size {l : List (Bytes × Bytes)} {m m' : Mem UInt8} {headsize size : ℕ}
    (h : writeoPairs l m headsize = some (m', size)) :
    size = headsize + (pairsText l).length := by
  induction l generalizing m headsize with
  | nil =>
      cases h
      rfl
  | cons x l ih =>
      obtain ⟨n, v⟩ := x
      rw [writeoPairs] at h
      rw [pairsText_cons]
      by_cases hn : n = []
      · rw [if_neg (not_not_intro hn)] at h
        split_ifs at h
        simpa [hn] using ih h
      · rw [if_pos hn] at h
        simp only at h
        split_ifs at h
        rw [if_neg hn, List.length_append, ih h, Nat.add_assoc]

/-- The loop over the pairs writes their lines when they fit with a terminator. -/
theorem writeoPairs_of_le {l : List (Bytes × Bytes)} (m : Mem UInt8) {headsize : ℕ}
    (h : headsize + (pairsText l).length < maxHeadSize) :
    ∃ m', writeoPairs l m headsize = some (m', headsize + (pairsText l).length) ∧
      peek m' 0 (headsize + (pairsText l).length) = peek m 0 headsize ++ pairsText l := by
  induction l generalizing m headsize with
  | nil => exact ⟨m, rfl, by simp [pairsText]⟩
  | cons x l ih =>
      obtain ⟨n, v⟩ := x
      rw [pairsText_cons] at h ⊢
      rw [writeoPairs]
      by_cases hn : n = []
      · rw [if_neg (not_not_intro hn), if_neg (by omega)]
        simp only [hn, if_true, List.nil_append] at h ⊢
        exact ih m h
      · rw [if_neg hn, List.length_append] at h
        rw [if_pos hn, if_neg hn, List.length_append, ← Nat.add_assoc, ← List.append_assoc]
        simp only
        rw [if_neg (by omega)]
        have hfit : headsize + (pairText n v).length + (pairsText l).length < maxHeadSize := by
          omega
        obtain ⟨m', hm', hpeek⟩ := ih
          (snprintf m headsize (maxHeadSize - headsize) (pairText n v)) hfit
        refine ⟨m', hm', ?_⟩
        rw [hpeek, peek_snprintf_extend m (Nat.zero_add _).symm (by omega)]

/-- The body of a well-formed package is in memory. -/
theorem UlPackage.WellFormed.bodyFaults_eq {p : UlPackage} (h : p.WellFormed) :
    p.bodyFaults = false := by
  rw [UlPackage.bodyFaults, Bool.or_eq_false_iff, decide_eq_false_iff_not, Int32.not_lt]
  refine ⟨h.bufsize_nonneg, ?_⟩
  cases hb : p.buf with
  | none => simp [h.bufsize_eq_zero hb]
  | some b => rfl

/-- **What the parts are**: when the head fits, the size line, the head, the body and the end
marker are sent; a head of exactly 26000 bytes has a `0` in place of its last byte. -/
theorem writeo_spec (junk : Mem UInt8) {s : OutSock} (hs : s.ErrorFree) {p : UlPackage}
    (hp : p.WellFormed) (h : p.headsize ≤ maxHeadSize) :
    ∃ s' last, ulPackWriteoMs junk s p = (0, s') ∧ s'.ErrorFree ∧
      s'.sent = s.sent ++ (sizeField p.sizeText ++ (pairsText p.pairs ++ [13, last]) ++ p.body ++
        bufEof) ∧ (last = 10 ↔ p.headsize < maxHeadSize) := by
  have hsize := p.headsize_eq
  have hpairs : 0 + (pairsText p.pairs).length < maxHeadSize := by omega
  obtain ⟨m, hm, hpeek⟩ := writeoPairs_of_le (poke junk 0 [0]) hpairs
  rw [Nat.zero_add] at hm hpeek
  rw [peek_zero, List.nil_append] at hpeek
  obtain ⟨last, hlast, hhead⟩ : ∃ last : UInt8, (last = 10 ↔ p.headsize < maxHeadSize) ∧
      peek (snprintf m (pairsText p.pairs).length (maxHeadSize - (pairsText p.pairs).length) crlf) 0
        p.headsize = pairsText p.pairs ++ [13, last] := by
    rw [hsize]
    by_cases hlt : (pairsText p.pairs).length + 2 < maxHeadSize
    · refine ⟨10, iff_of_true rfl hlt, ?_⟩
      have hfit : crlf.length < maxHeadSize - (pairsText p.pairs).length := by
        change 2 < _
        omega
      have := peek_snprintf_extend m (Nat.zero_add (pairsText p.pairs).length).symm hfit
      rwa [hpeek] at this
    · refine ⟨0, iff_of_false (by decide) hlt, ?_⟩
      have := peek_snprintf_cut m [13] 10 (Nat.zero_add (pairsText p.pairs).length).symm
      rw [hpeek] at this
      rw [show maxHeadSize - (pairsText p.pairs).length = 2 by omega]
      exact this
  have hlen₃ := hp.cast_length_body
  obtain ⟨s₁, hw₁, hs₁, he₁⟩ := hs.write (sizeField p.sizeText)
  obtain ⟨s₂, hw₂, hs₂, he₂⟩ := he₁.write (pairsText p.pairs ++ [13, last])
  obtain ⟨s₃, hw₃, hs₃, he₃⟩ := he₂.write p.body
  obtain ⟨s₄, hw₄, hs₄, he₄⟩ := he₃.write bufEof
  refine ⟨s₄, last, ?_, he₄, by rw [hs₄, hs₃, hs₂, hs₁]; simp only [List.append_assoc], hlast⟩
  have hlen₂ : ((pairsText p.pairs ++ [13, last]).length : ℤ) = p.headsize := by
    rw [hsize, List.length_append]
    rfl
  unfold ulPackWriteoMs
  rw [hm]
  simp only
  rw [show (pairsText p.pairs).length + crlf.length = p.headsize from hsize.symm,
    if_neg (Nat.not_lt.mpr h), show sizeText p.headsize p.bufsize = p.sizeText from rfl, hw₁,
    length_sizeField, if_neg (not_not_intro rfl), hhead, hw₂, hlen₂, if_neg (not_not_intro rfl),
    hp.bodyFaults_eq, if_neg Bool.false_ne_true, hw₃, hlen₃, if_neg (not_not_intro rfl), hw₄,
    if_neg (not_not_intro rfl)]

/-- A head that does not fit is a failure, and nothing is sent. -/
theorem writeo_of_gt (junk : Mem UInt8) (s : OutSock) {p : UlPackage}
    (h : maxHeadSize < p.headsize) : ulPackWriteoMs junk s p = (-2, s) := by
  unfold ulPackWriteoMs
  cases hm : writeoPairs p.pairs (poke junk 0 [0]) 0 with
  | none => rfl
  | some r =>
      obtain ⟨m, size⟩ := r
      have hsize : size + crlf.length = p.headsize := by
        rw [writeoPairs_size hm, Nat.zero_add]
        exact p.headsize_eq.symm
      simp only
      rw [hsize, if_pos h]

/-! ## What is built in memory -/

/-- When the loop over the pairs succeeds, `curpos` has grown by the length of their lines. -/
theorem fillPairs_size {maxlen : Int32} {l : List (Bytes × Bytes)} {m m' : Mem UInt8}
    {curpos pos : ℕ} (h : fillPairs maxlen l m curpos = some (m', pos)) :
    pos = curpos + (pairsText l).length := by
  induction l generalizing m curpos with
  | nil =>
      cases h
      rfl
  | cons x l ih =>
      obtain ⟨n, v⟩ := x
      rw [fillPairs] at h
      rw [pairsText_cons]
      by_cases hn : n = []
      · rw [if_neg (not_not_intro hn)] at h
        simpa [hn] using ih h
      · rw [if_pos hn] at h
        simp only at h
        split_ifs at h
        rw [if_neg hn, List.length_append, ih h, Nat.add_assoc]

/-- The space behind `curpos`, as an `int`. -/
theorem toInt_room {maxlen : Int32} {curpos : ℕ} (h : (curpos : ℤ) ≤ maxlen.toInt) :
    (Int32.ofInt (maxlen.toInt - curpos)).toInt = maxlen.toInt - curpos := by
  have := maxlen.toInt_lt
  exact Int32.toInt_ofInt_of_le (by omega) (by omega)

/-- The space behind `curpos`, as a `size_t`. -/
theorem cast_room {maxlen : Int32} {curpos : ℕ} (h : (curpos : ℤ) ≤ maxlen.toInt) :
    (room maxlen curpos : ℤ) = maxlen.toInt - curpos := by
  have := maxlen.toInt_lt
  unfold room
  omega

/-- The loop over the pairs writes their lines behind the size line when they fit. -/
theorem fillPairs_of_le {maxlen : Int32} (hmax : sizeNum + maxHeadSize + 20 ≤ maxlen.toInt)
    {l : List (Bytes × Bytes)} (m : Mem UInt8) {k : ℕ}
    (h : k + (pairsText l).length ≤ maxHeadSize) :
    ∃ m', fillPairs maxlen l m (sizeNum + k) = some (m', sizeNum + (k + (pairsText l).length)) ∧
      peek m' sizeNum (k + (pairsText l).length) = peek m sizeNum k ++ pairsText l := by
  induction l generalizing m k with
  | nil => exact ⟨m, rfl, by simp [pairsText]⟩
  | cons x l ih =>
      obtain ⟨n, v⟩ := x
      rw [pairsText_cons] at h ⊢
      rw [fillPairs]
      by_cases hn : n = []
      · rw [if_neg (not_not_intro hn)]
        simp only [hn, if_true, List.nil_append] at h ⊢
        exact ih m h
      · rw [if_neg hn, List.length_append] at h
        rw [if_pos hn, if_neg hn, List.length_append, ← Nat.add_assoc k, ← List.append_assoc]
        have hroom : ((sizeNum + k : ℕ) : ℤ) ≤ maxlen.toInt := by
          push_cast
          omega
        have hfit : (pairText n v).length < room maxlen (sizeNum + k) := by
          have := cast_room hroom
          push_cast at this
          omega
        simp only
        rw [toInt_room hroom, if_neg (by push_cast; omega), if_neg (by omega)]
        have hrest : k + (pairText n v).length + (pairsText l).length ≤ maxHeadSize := by
          omega
        obtain ⟨m', hm', hpeek⟩ := ih
          (snprintf m (sizeNum + k) (room maxlen (sizeNum + k)) (pairText n v)) hrest
        refine ⟨m', by rw [← hm', Nat.add_assoc], ?_⟩
        rw [hpeek, peek_snprintf_extend m rfl hfit]

/-- A head or a size line that does not fit is a failure. -/
theorem fill_of_gt (maxlen : Int32) (m : Mem UInt8) {p : UlPackage}
    (h : maxHeadSize < p.headsize ∨ sizeNum - 1 ≤ p.sizeText.length) :
    fill maxlen m p = none := by
  unfold fill
  cases hm : fillPairs maxlen p.pairs m sizeNum with
  | none => rfl
  | some r =>
      obtain ⟨m', pos⟩ := r
      have hsize : pos + crlf.length - sizeNum = p.headsize := by
        rw [fillPairs_size hm, p.headsize_eq]
        change sizeNum + (pairsText p.pairs).length + 2 - sizeNum = _
        omega
      simp only
      rw [hsize]
      rcases h with h | h
      · rw [if_pos h]
      · have hline : ¬ (sizeText p.headsize p.bufsize).length < sizeNum - 1 := Nat.not_lt.mpr h
        rw [if_neg hline]
        split_ifs <;> rfl

/-- **What is built**: when the head and the size line fit, `fill` builds the frame. -/
theorem fill_spec {maxlen : Int32} (hmax : sizeNum + maxHeadSize + 20 ≤ maxlen.toInt)
    (m : Mem UInt8) {p : UlPackage} (hp : p.WellFormed) (h : p.headsize ≤ maxHeadSize)
    (hline : p.sizeText.length < sizeNum - 1) :
    ∃ m', fill maxlen m p = some (m', (frame p).length) ∧
      peek m' 0 (frame p).length = frame p := by
  have hsize := p.headsize_eq
  have hpairs : 0 + (pairsText p.pairs).length ≤ maxHeadSize := by omega
  obtain ⟨m₁, hm₁, hpeek⟩ := fillPairs_of_le hmax m hpairs
  simp only [Nat.add_zero, Nat.zero_add, peek_zero, List.nil_append] at hm₁ hpeek
  have hroom : ((sizeNum + (pairsText p.pairs).length : ℕ) : ℤ) ≤ maxlen.toInt := by
    push_cast
    omega
  have hfit : crlf.length < room maxlen (sizeNum + (pairsText p.pairs).length) := by
    have := cast_room hroom
    push_cast at this
    change 2 < _
    omega
  have hcur : sizeNum + (pairsText p.pairs).length + crlf.length = sizeNum + p.headsize := by
    rw [hsize]
    rfl
  have hhead : peek (snprintf m₁ (sizeNum + (pairsText p.pairs).length)
      (room maxlen (sizeNum + (pairsText p.pairs).length)) crlf) sizeNum p.headsize =
        headText p.pairs := by
    have := peek_snprintf_extend m₁ (Eq.refl (sizeNum + (pairsText p.pairs).length)) hfit
    rwa [hpeek, show (pairsText p.pairs).length + crlf.length = p.headsize from hsize.symm] at this
  have hfault : ¬ (p.bufsize ≠ 0 ∧ p.buf.isNone = true) := by
    rintro ⟨h0, hnone⟩
    exact h0 (hp.bufsize_eq_zero (Option.isNone_iff_eq_none.mp hnone))
  refine ⟨poke (poke (poke (snprintf m₁ (sizeNum + (pairsText p.pairs).length)
    (room maxlen (sizeNum + (pairsText p.pairs).length)) crlf) 0 (sizeField p.sizeText))
    (sizeNum + p.headsize) p.body) (sizeNum + p.headsize + p.body.length) bufEof, ?_, ?_⟩
  · unfold fill
    rw [hm₁]
    simp only
    rw [hcur, Nat.add_sub_cancel_left, if_neg (Nat.not_lt.mpr h),
      show sizeText p.headsize p.bufsize = p.sizeText from rfl, if_neg (by omega), if_pos hline,
      if_neg (by omega), if_neg hfault, length_frame]
    rfl
  · have hfront := peek_poke_front (snprintf m₁ (sizeNum + (pairsText p.pairs).length)
      (room maxlen (sizeNum + (pairsText p.pairs).length)) crlf) 0 p.headsize
      (sizeField p.sizeText)
    rw [length_sizeField, Nat.zero_add, hhead] at hfront
    rw [length_frame, show (5 : ℕ) = bufEof.length from rfl,
      peek_poke_extend _ bufEof (Nat.zero_add _).symm,
      peek_poke_extend _ p.body (Nat.zero_add _).symm, hfront]
    rfl

/-! ## The size of the memory -/

/-- The largest body for which the size of the memory is an `int`. -/
def maxBodySize : ℤ := 2147457607

/-- For a body that is not too large the size of the memory is what it should be. -/
theorem allocLen_eq {p : UlPackage} (hp : p.WellFormed) (h : p.bufsize.toInt ≤ maxBodySize) :
    allocLen p = sizeNum + maxHeadSize + p.bufsize.toInt + 20 ∧
      (maxLen p).toInt = allocLen p := by
  have h0 := hp.toInt_bufsize_nonneg
  have hsum : allocLen p = sizeNum + maxHeadSize + p.bufsize.toInt + 20 := by
    rw [allocLen, Int32.toInt_ofInt_of_le]
    · simp only [sizeNum, maxHeadSize]
      omega
    · simp only [sizeNum, maxHeadSize, maxBodySize] at h ⊢
      omega
  refine ⟨hsum, ?_⟩
  rw [maxLen, hsum, Int32.toInt_ofInt_of_le]
  · simp only [sizeNum, maxHeadSize]
    omega
  · simp only [sizeNum, maxHeadSize, maxBodySize] at h ⊢
    omega

/-- For a larger body it is negative, as an `int`. -/
theorem maxLen_neg {p : UlPackage} (h : maxBodySize < p.bufsize.toInt) :
    -2 ^ 31 ≤ (maxLen p).toInt ∧ (maxLen p).toInt < 0 := by
  refine ⟨Int32.le_toInt _, ?_⟩
  have := p.bufsize.toInt_lt
  simp only [maxLen, allocLen, Int32.toInt_ofInt, sizeNum, maxHeadSize, maxBodySize,
    Int.bmod_def, Int32.size] at h ⊢
  push_cast
  split_ifs <;> omega

/-- A negative size cannot be allocated. -/
theorem Malloc.not_grants_of_neg (malloc : Malloc) {n : ℤ} (h : n < 0) (hn : -2 ^ 63 ≤ n) :
    ¬ malloc.grants n = true := by
  intro hg
  have := malloc.bounded n hg
  omega

/-! ## What the writers do -/

/-- Everything that `ul_pack_write_mo_ms` and `ul_pack_serialization` bound fits. -/
structure UlPackage.Fits (p : UlPackage) : Prop where
  head : p.headsize ≤ maxHeadSize
  line : p.sizeText.length < sizeNum - 1
  body : p.bufsize.toInt ≤ maxBodySize

/-- When everything fits, `fill` builds the frame. -/
theorem fill_of_fits (m : Mem UInt8) {p : UlPackage} (hp : p.WellFormed) (h : p.Fits) :
    ∃ m', fill (maxLen p) m p = some (m', (frame p).length) ∧
      peek m' 0 (frame p).length = frame p := by
  have h0 := hp.toInt_bufsize_nonneg
  obtain ⟨halloc, hmax⟩ := allocLen_eq hp h.body
  exact fill_spec (by rw [hmax, halloc]; omega) m hp h.head h.line

/-- With memory `ul_pack_write_mo_ms` sends the frame when everything fits. -/
theorem writeMo_spec {malloc : Malloc} (junk : Mem UInt8) {s : OutSock} (hs : s.ErrorFree)
    {p : UlPackage} (hp : p.WellFormed) (h : p.Fits) (hm : malloc.grants (allocLen p) = true) :
    ∃ s', ulPackWriteMoMs malloc junk s p = (0, s') ∧ s'.ErrorFree ∧
      s'.sent = s.sent ++ frame p := by
  obtain ⟨m, hfill, hpeek⟩ := fill_of_fits junk hp h
  obtain ⟨s', hw, hs', he'⟩ := hs.write (frame p)
  refine ⟨s', ?_, he', hs'⟩
  rw [ulPackWriteMoMs, if_pos hm, hfill]
  simp only
  rw [hpeek, hw, if_neg (not_not_intro rfl)]

/-- Without memory it is `ul_pack_writeo_ms`. -/
theorem writeMo_of_null {malloc : Malloc} (junk : Mem UInt8) (s : OutSock) {p : UlPackage}
    (hm : malloc.grants (allocLen p) ≠ true) :
    ulPackWriteMoMs malloc junk s p = ulPackWriteoMs junk s p := by
  rw [ulPackWriteMoMs, if_neg hm]

/-- `ul_pack_write_mo_ms` fails when the head does not fit. -/
theorem writeMo_of_gt (malloc : Malloc) (junk : Mem UInt8) (s : OutSock) {p : UlPackage}
    (h : maxHeadSize < p.headsize) : (ulPackWriteMoMs malloc junk s p).1 < 0 := by
  have hneg : (-1 : ℤ) < 0 ∧ (-2 : ℤ) < 0 := by omega
  by_cases hm : malloc.grants (allocLen p) = true
  · rw [ulPackWriteMoMs, if_pos hm, fill_of_gt _ _ (Or.inl h)]
    exact hneg.1
  · rw [writeMo_of_null junk s hm, writeo_of_gt junk s h]
    exact hneg.2

/-- With memory `ul_pack_write_mo_ms` fails when the size line does not fit. -/
theorem writeMo_of_line {malloc : Malloc} (junk : Mem UInt8) (s : OutSock) {p : UlPackage}
    (hline : sizeNum - 1 ≤ p.sizeText.length) (hm : malloc.grants (allocLen p) = true) :
    ulPackWriteMoMs malloc junk s p = (-1, s) := by
  rw [ulPackWriteMoMs, if_pos hm, fill_of_gt _ _ (Or.inr hline)]

/-- With memory `ul_pack_serialization` stores the frame when everything fits. -/
theorem serialization_of_fits {malloc : Malloc} (junk buf : Mem UInt8) {bufsize : Int32}
    {p : UlPackage} (hp : p.WellFormed) (h : p.Fits)
    (hm : malloc.grants (maxLen p).toInt = true)
    (hsize : ((frame p).length : ℤ) < bufsize.toInt) :
    ulPackSerialization malloc junk buf bufsize p =
      (((frame p).length : ℤ), poke buf 0 (frame p)) := by
  obtain ⟨m, hfill, hpeek⟩ := fill_of_fits junk hp h
  have hpos : ¬ bufsize ≤ 0 := by
    rw [Int32.le_iff_toInt_le, Int32.toInt_zero]
    omega
  rw [ulPackSerialization, if_neg hpos, if_pos hm, hfill]
  simp only
  rw [hpeek, if_neg (not_le.mpr hsize)]

/-- In every other case `ul_pack_serialization` fails and stores nothing. -/
theorem serialization_of_not {malloc : Malloc} (junk buf : Mem UInt8) {bufsize : Int32}
    {p : UlPackage} (hp : p.WellFormed)
    (h : ¬ (p.Fits ∧ malloc.grants (maxLen p).toInt = true ∧
      ((frame p).length : ℤ) < bufsize.toInt)) :
    ulPackSerialization malloc junk buf bufsize p = (-1, buf) := by
  rw [ulPackSerialization]
  by_cases hm : malloc.grants (maxLen p).toInt = true
  swap
  · rw [if_neg hm, ite_self]
  by_cases hbody : maxBodySize < p.bufsize.toInt
  · obtain ⟨h₁, h₂⟩ := maxLen_neg hbody
    exact absurd hm (malloc.not_grants_of_neg h₂ (by omega))
  by_cases hfit : maxHeadSize < p.headsize ∨ sizeNum - 1 ≤ p.sizeText.length
  · rw [fill_of_gt _ _ hfit, ite_self, ite_self]
  rw [not_or, Nat.not_lt, Nat.not_le] at hfit
  have hp' : p.Fits := ⟨hfit.1, hfit.2, not_lt.mp hbody⟩
  obtain ⟨m, hfill, -⟩ := fill_of_fits junk hp hp'
  rw [hfill]
  simp only
  have hsize : bufsize.toInt ≤ ((frame p).length : ℤ) := by
    rw [← not_lt]
    intro hsize
    exact h ⟨hp', hm, hsize⟩
  rw [if_pos hsize, ite_self, ite_self]

end Asenal.Pack
