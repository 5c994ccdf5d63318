import Asenal.Pack.Decode

/-!
# What `ul_pack_deserialization` touches

The decoder with a record of its memory accesses: which bytes of the array it reads, and what it
stores in its fixed arrays and in the slots of the package. An access is safe if it stays inside
the array it is made on, and if what is stored has its terminator there.

* `deserializationT_eq` — recording the accesses does not change the result.
* `deserialization_safe_iff` — all accesses are safe iff the array holds a whole size line with its
  terminator, the size of the announced frame is an `int`, and the second words of the lines that
  are scanned have at most nine bytes.
-/

namespace Asenal.Pack

open Asenal.Lib.Text Asenal.Lib.Memory Asenal.Lib.CString

/-! ## The decoder with its accesses -/

/-- The copy of the size line. -/
def sizeLineAccesses (buf : Mem UInt8) : List Access :=
  [.read 0 sizeNum, .store .sizebuf (peek buf 0 sizeNum)]

/-- The copies of a head of `h` bytes, a body of `b` bytes and the end marker. The memory of the
body belongs to the caller. -/
def partAccesses (buf : Mem UInt8) (h b : ℕ) : List Access :=
  [.read sizeNum h, .store .headbuf (peek buf sizeNum h ++ [0]), .read (sizeNum + h) b,
    .read (sizeNum + h + b) bufEof.length,
    .store .eofstr (peek buf (sizeNum + h + b) bufEof.length ++ [0])]

/-- `ul_pack_deserialization` with its accesses. -/
def ulPackDeserializationT (behind : Bytes) (buf : Mem UInt8) (bufsize : Int32) (p : UlPackage) :
    List Access × (ℤ × UlPackage) :=
  if bufsize ≤ 0 then ([], -1, p)
  else
    let sizebuf := peek buf 0 sizeNum
    let first := sizeLineAccesses buf
    if sizebuf.take bufStart.length ≠ bufStart then (first, -1, p)
    else
      let (tmp, headsize, bodysize) := scanSizes (cstr (sizebuf ++ behind))
      let second := first ++ [.store .tmp (tmp ++ [0])]
      if headsize < 0 ∨ bodysize < 0 then (second, -1, p)
      else if p.bufsize < bodysize ∨ (maxHeadSize : ℤ) ≤ headsize.toInt then (second, -1, p)
      else
        let packsize := Int32.ofInt (sizeNum + headsize.toInt + bodysize.toInt + bufEof.length)
        if bufsize < packsize then (second, -1, p)
        else
          let h := headsize.toNatClampNeg
          let b := bodysize.toNatClampNeg
          let headbuf := peek buf sizeNum h
          let body := peek buf (sizeNum + h) b
          let p := { p.store body with bufsize := bodysize }
          let eofstr := peek buf (sizeNum + h + b) bufEof.length
          let third := second ++ partAccesses buf h b
          if eofstr ≠ bufEof then (third, -1, p)
          else
            let r := parseLinesT (headLines (cstr headbuf)) ⟨p.name, p.value, 0, tmp⟩
            (third ++ r.1,
              match r.2 with
              | .error st => (-1, p.setSlots st)
              | .ok st => (packsize.toInt, { p.setSlots st with pairnum := st.i }))

/-- **Recording the accesses does not change the result.** -/
theorem deserializationT_eq (behind : Bytes) (buf : Mem UInt8) (bufsize : Int32) (p : UlPackage) :
    (ulPackDeserializationT behind buf bufsize p).2 = ulPackDeserialization behind buf bufsize p := by
  unfold ulPackDeserializationT ulPackDeserialization
  generalize scanSizes (cstr (peek buf 0 sizeNum ++ behind)) = z
  obtain ⟨tmp, headsize, bodysize⟩ := z
  simp only [parseLinesT_eq, parseHead_eq]
  split_ifs <;> rfl

/-! ## When the decoder is safe -/

/-- What keeps the decoder inside its arrays: a whole size line with its terminator (so that it
does not matter what stands behind it), an announced frame whose size is an `int`, and, if the array
holds the whole frame, second words of at most nine bytes in the lines that are scanned. -/
def WithinBounds (buf : Mem UInt8) (bufsize : Int32) (p : UlPackage) : Prop :=
  (sizeNum : ℤ) ≤ bufsize.toInt ∧ 0 ∈ peek buf 0 sizeNum ∧
    ∀ h b, Announces [] buf p.bufsize h b → frameSize h b < 2 ^ 31 ∧
      ((frameSize h b : ℤ) ≤ bufsize.toInt →
        peek buf (sizeNum + h + b) bufEof.length = bufEof →
          ∀ l ∈ scannedLines (headLines (cstr (peek buf sizeNum h))) 0 startWord,
            ∀ w ∈ secondWord l, w.length < 10)

/-- The size that the decoder computes for a frame that is too large for an `int` is negative. -/
theorem packsize_neg {h b : ℕ} (hh : h < maxHeadSize) (hb : (b : ℤ) < 2 ^ 31)
    (hlarge : 2 ^ 31 ≤ frameSize h b) :
    (packSize h b).toInt < 0 := by
  rw [packSize, Int32.toInt_ofInt, Int.bmod_def]
  simp only [frameSize, sizeNum, maxHeadSize, Int32.size, List.length_cons, List.length_nil] at *
  omega

/-- The copy of the size line is safe iff the array holds a size line with its terminator. -/
theorem sizeLine_safe_iff (buf : Mem UInt8) (bufsize : Int32) :
    (∀ a ∈ sizeLineAccesses buf, a.Safe bufsize) ↔
      (sizeNum : ℤ) ≤ bufsize.toInt ∧ 0 ∈ peek buf 0 sizeNum := by
  rw [sizeLineAccesses, List.forall_mem_cons, List.forall_mem_singleton, Access.Safe, Access.Safe,
    Nat.zero_add, length_peek]
  exact and_congr_right fun _ => and_iff_left (Nat.le_refl _)

/-- The copies of the parts of a frame are safe iff the array holds the whole frame. -/
theorem parts_safe_iff (buf : Mem UInt8) (bufsize : Int32) {h b : ℕ} (hh : h < maxHeadSize) :
    (∀ a ∈ partAccesses buf h b, a.Safe bufsize) ↔ (frameSize h b : ℤ) ≤ bufsize.toInt := by
  simp only [partAccesses, List.forall_mem_cons, Access.safe_store_iff, length_peek]
  simp only [Access.Safe, Slot.capacity, frameSize]
  constructor
  · rintro ⟨-, -, -, h, -⟩
    exact h
  · intro h
    push_cast at h ⊢
    exact ⟨by omega, hh, by omega, h, Nat.lt_succ_self _, fun _ hm => absurd hm List.not_mem_nil⟩

/-- **When `ul_pack_deserialization` is safe.** -/
theorem deserialization_safe_iff (behind : Bytes) (buf : Mem UInt8) {bufsize : Int32}
    (p : UlPackage) (hpos : 0 < bufsize.toInt) :
    (∀ a ∈ (ulPackDeserializationT behind buf bufsize p).1, a.Safe bufsize) ↔
      WithinBounds buf bufsize p := by
  have hfirst := sizeLine_safe_iff buf bufsize
  have hbuf : ¬ bufsize ≤ 0 := by
    rw [Int32.le_iff_toInt_le, Int32.toInt_zero, not_le]
    exact hpos
  unfold WithinBounds
  rw [← and_assoc, ← hfirst]
  unfold ulPackDeserializationT
  dsimp only
  rw [if_neg hbuf]
  by_cases hstart : (peek buf 0 sizeNum).take bufStart.length = bufStart
  swap
  · rw [if_pos hstart]
    refine (and_iff_left ?_).symm
    intro h b ha
    exact absurd ha.start hstart
  rw [if_neg (not_not_intro hstart)]
  by_cases hsafe : ∀ a ∈ sizeLineAccesses buf, a.Safe bufsize
  swap
  · refine iff_of_false ?_ fun h => hsafe h.1
    intro hall
    apply hsafe
    intro a ha
    apply hall
    split_ifs <;> simp only [List.mem_append, ha, true_or]
  rw [and_iff_right hsafe, cstr_append_of_mem (hfirst.mp hsafe).2]
  have hword := scanSizes_word hstart []
  rw [List.append_nil] at hword
  generalize hz : scanSizes (cstr (peek buf 0 sizeNum)) = z at hword ⊢
  obtain ⟨tmp, headsize, bodysize⟩ := z
  simp only at hword
  subst hword
  dsimp only
  have hsecond : ∀ a ∈ sizeLineAccesses buf ++ [.store .tmp (startWord ++ [0])],
      a.Safe bufsize := by
    rw [List.forall_mem_append]
    refine ⟨hsafe, ?_⟩
    rw [List.forall_mem_singleton, Access.safe_store_iff]
    decide
  have hz' : scanSizes (cstr (peek buf 0 sizeNum ++ [])) = (startWord, headsize, bodysize) := by
    rw [List.append_nil, hz]
  by_cases hneg : headsize < 0 ∨ bodysize < 0
  · rw [if_pos hneg]
    exact iff_of_true hsecond fun h b ha => absurd ha (not_announces hz' (Or.inl hneg) h b)
  rw [if_neg hneg]
  by_cases hlarge : p.bufsize < bodysize ∨ (maxHeadSize : ℤ) ≤ headsize.toInt
  · rw [if_pos hlarge]
    exact iff_of_true hsecond fun h b ha => absurd ha (not_announces hz' (Or.inr hlarge) h b)
  rw [if_neg hlarge]
  have hann := announces_of_checks hstart hz' hneg hlarge
  have hh := cast_toNat (not_or.mp hneg).1
  have hb := cast_toNat (not_or.mp hneg).2
  generalize headsize.toNatClampNeg = h at hh hann ⊢
  generalize bodysize.toNatClampNeg = b at hb hann ⊢
  rw [hann.forall_iff, ← hh, ← hb, ← packSize]
  have hparts := parts_safe_iff buf bufsize hann.head_lt (b := b)
  have hbmax := bodysize.toInt_lt
  have hmax := bufsize.toInt_lt
  by_cases hint : frameSize h b < 2 ^ 31
  swap
  · -- the size of the frame is negative when it is computed, and the end marker is out of reach
    have hwrap := packsize_neg hann.head_lt (by omega) (Nat.not_lt.mp hint)
    have hshort : ¬ bufsize < packSize h b := by
      rw [Int32.lt_iff_toInt_lt]
      omega
    rw [if_neg hshort]
    refine iff_of_false ?_ fun h => hint h.1
    intro hall
    have hreach : ¬ (frameSize h b : ℤ) ≤ bufsize.toInt := by omega
    apply hreach
    rw [← hparts]
    intro a ha
    apply hall
    split_ifs <;> simp only [List.mem_append, ha, true_or, or_true]
  rw [and_iff_right hint]
  have hpack : (packSize h b).toInt = frameSize h b := by
    rw [packSize, toInt_packsize _ _ (by omega) (by omega) (by rw [frameSize] at hint; omega)]
    simp only [frameSize]
    push_cast
    rfl
  have hlt : bufsize < packSize h b ↔ bufsize.toInt < (frameSize h b : ℤ) := by
    rw [Int32.lt_iff_toInt_lt, hpack]
  by_cases hshort : bufsize.toInt < (frameSize h b : ℤ)
  · rw [if_pos (hlt.mpr hshort)]
    exact iff_of_true hsecond fun hle => absurd hle (not_le.mpr hshort)
  rw [if_neg (mt hlt.mp hshort), forall_prop_of_true (not_lt.mp hshort)]
  have hthird : ∀ a ∈ sizeLineAccesses buf ++ [.store .tmp (startWord ++ [0])] ++
      partAccesses buf h b, a.Safe bufsize := by
    rw [List.forall_mem_append]
    exact ⟨hsecond, hparts.mpr (not_lt.mp hshort)⟩
  by_cases heof : peek buf (sizeNum + h + b) bufEof.length = bufEof
  · rw [if_neg (not_not_intro heof), forall_prop_of_true heof, List.forall_mem_append,
      and_iff_right hthird]
    exact parseLinesT_safe_iff bufsize _ _
  · rw [if_pos heof]
    exact iff_of_true hthird fun h => absurd h heof

/-- An array that is one `0` byte. -/
theorem deserialization_safe_iff_one :
    (∀ a ∈ (ulPackDeserializationT [] (fun _ => 0) 1 emptyPackage).1, a.Safe 1) ↔
      WithinBounds (fun _ => 0) 1 emptyPackage :=
  deserialization_safe_iff [] (fun _ => 0) emptyPackage (by decide)

/-- A frame with the line `k 1234567890 : v` in its head. -/
def longWordFrame : Frame :=
  Frame.ofTerminated (sizeField (sizeText 20 0)) (ascii "k 1234567890 : v" ++ crlf ++ crlf) []
    (by decide +kernel) (by decide +kernel) (by decide +kernel) (by decide +kernel)

/-- Twenty bytes are read from an array of one byte, and a word of ten bytes and its terminator are
stored in the array `tmp` of ten bytes. -/
theorem deserialization_out_of_bounds :
    (¬ ∀ a ∈ (ulPackDeserializationT [] (fun _ => 0) 1 emptyPackage).1, a.Safe 1) ∧
      ¬ ∀ a ∈ (ulPackDeserializationT [] (ofList longWordFrame.bytes fun _ => 0) 45
        emptyPackage).1, a.Safe 45 := by
  have hread : Access.read 0 20 ∈ (ulPackDeserializationT [] (fun _ => 0) 1 emptyPackage).1 := by
    decide +kernel
  have hstore : Access.store .tmp (ascii "1234567890" ++ [0]) ∈
      (ulPackDeserializationT [] (ofList longWordFrame.bytes fun _ => 0) 45 emptyPackage).1 := by
    decide +kernel
  constructor
  · intro h
    have : ((0 + 20 : ℕ) : ℤ) ≤ (1 : Int32).toInt := h _ hread
    exact absurd this (by decide)
  · intro h
    have := h _ hstore
    rw [Access.safe_store_iff] at this
    exact absurd this (by decide)

end Asenal.Pack
