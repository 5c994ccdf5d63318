import Asenal.Pack.RoundTrip

/-!
# Where the copies agree

The writer exists in three copies and the reader in two.

* `writers_agree_iff` — the three writers agree exactly if the head is too long for all of them,
  or it is shorter than 26000 bytes, the size line has at most 18 bytes, the size of the
  allocated memory is an `int`, and `ul_pack_serialization` gets this memory.
* `readers_agree` — the two readers always agree on bytes whose size line is terminated.
-/

namespace Asenal.Pack

open Asenal.Lib.Text Asenal.Lib.Memory Asenal.Lib.CString

/-! ## The writers -/

/-- The three writers agree on a package: all of them succeed with the same bytes, or all of them
fail. Each writer has its own fresh memory, which holds what it will; two of them call `malloc`. -/
def WritersAgree (malloc₂ malloc₃ : Malloc) (junk₁ junk₂ junk₃ dest : Mem UInt8)
    (destsize : Int32) (s : OutSock) (p : UlPackage) : Prop :=
  let w := ulPackWriteoMs junk₁ s p
  let m := ulPackWriteMoMs malloc₂ junk₂ s p
  let z := ulPackSerialization malloc₃ junk₃ dest destsize p
  (w.1 = 0 ∧ m.1 = 0 ∧ 0 < z.1 ∧ w.2.sent = s.sent ++ peek z.2 0 z.1.toNat ∧
    m.2.sent = s.sent ++ peek z.2 0 z.1.toNat) ∨
  (w.1 < 0 ∧ m.1 < 0 ∧ z.1 < 0)

/-- A serialization that succeeds returns the length of the frame and stores the frame. -/
theorem peek_serialization {malloc : Malloc} (junk dest : Mem UInt8) {destsize : Int32}
    {p : UlPackage} (hp : p.WellFormed) (hfit : p.Fits)
    (hm : malloc.grants (maxLen p).toInt = true)
    (hdest : ((frame p).length : ℤ) < destsize.toInt) :
    0 < (ulPackSerialization malloc junk dest destsize p).1 ∧
      peek (ulPackSerialization malloc junk dest destsize p).2 0
        (ulPackSerialization malloc junk dest destsize p).1.toNat = frame p := by
  rw [serialization_of_fits junk dest hp hfit hm hdest]
  dsimp only
  rw [Int.toNat_natCast, peek_poke_self, length_frame]
  exact ⟨by omega, rfl⟩

/-- The bytes that the first writer sends are the frame only if the last byte of the head is. -/
theorem eq_of_append_frame {p : UlPackage} {last : UInt8}
    (h : sizeField p.sizeText ++ (pairsText p.pairs ++ [13, last]) ++ p.body ++ bufEof = frame p) :
    last = 10 := by
  simpa [frame, headText] using h

/-- A head that is shorter than 26000 bytes is sent whole: the first writer sends the frame. -/
theorem writeo_frame (junk : Mem UInt8) {s : OutSock} (hs : s.ErrorFree) {p : UlPackage}
    (hp : p.WellFormed) (h : p.headsize < maxHeadSize) :
    ∃ s', ulPackWriteoMs junk s p = (0, s') ∧ s'.sent = s.sent ++ frame p := by
  obtain ⟨s', last, hw, -, hsent, hlast⟩ := writeo_spec junk hs hp h.le
  refine ⟨s', hw, ?_⟩
  rw [hsent, hlast.mpr h]
  rfl

/-- With or without memory, the second writer sends the frame. -/
theorem writeMo_frame (malloc : Malloc) (junk : Mem UInt8) {s : OutSock} (hs : s.ErrorFree)
    {p : UlPackage} (hp : p.WellFormed) (hfit : p.Fits) (h : p.headsize < maxHeadSize) :
    ∃ s', ulPackWriteMoMs malloc junk s p = (0, s') ∧ s'.sent = s.sent ++ frame p := by
  by_cases hm : malloc.grants (allocLen p) = true
  · obtain ⟨s', hw, -, hsent⟩ := writeMo_spec junk hs hp hfit hm
    exact ⟨s', hw, hsent⟩
  · rw [writeMo_of_null junk s hm]
    exact writeo_frame junk hs hp h

/-- **When the three writers agree**, on an error-free socket and with a destination that is
large enough, whatever `malloc` answers. -/
theorem writers_agree_iff (malloc₂ malloc₃ : Malloc) (junk₁ junk₂ junk₃ dest : Mem UInt8)
    {destsize : Int32} {s : OutSock} (hs : s.ErrorFree) {p : UlPackage} (hp : p.WellFormed)
    (hdest : ((frame p).length : ℤ) < destsize.toInt) :
    WritersAgree malloc₂ malloc₃ junk₁ junk₂ junk₃ dest destsize s p ↔
      maxHeadSize < p.headsize ∨
        (p.headsize < maxHeadSize ∧ p.sizeText.length < sizeNum - 1 ∧
          p.bufsize.toInt ≤ maxBodySize ∧
          malloc₃.grants (sizeNum + maxHeadSize + p.bufsize.toInt + 20) = true) := by
  have hneg : (-1 : ℤ) < 0 ∧ (-2 : ℤ) < 0 := by omega
  by_cases hgt : maxHeadSize < p.headsize
  · have hnot : ¬ (p.Fits ∧ malloc₃.grants (maxLen p).toInt = true ∧
        ((frame p).length : ℤ) < destsize.toInt) := by
      intro h
      exact absurd h.1.head (Nat.not_le.mpr hgt)
    constructor
    · intro _
      exact Or.inl hgt
    · intro _
      refine Or.inr ⟨?_, writeMo_of_gt malloc₂ junk₂ s hgt, ?_⟩
      · rw [writeo_of_gt junk₁ s hgt]
        exact hneg.2
      · rw [serialization_of_not junk₃ dest hp hnot]
        exact hneg.1
  rw [Nat.not_lt] at hgt
  obtain ⟨s₁, last, hw, -, hsent, hlast⟩ := writeo_spec junk₁ hs hp hgt
  -- for a body that is not too large `maxlen` is the sum that it stands for
  have hsum (hbody : p.bufsize.toInt ≤ maxBodySize) :
      (maxLen p).toInt = sizeNum + maxHeadSize + p.bufsize.toInt + 20 := by
    rw [(allocLen_eq hp hbody).2, (allocLen_eq hp hbody).1]
  by_cases hfit : p.Fits ∧ malloc₃.grants (maxLen p).toInt = true
  swap
  · -- the first writer succeeds and the third one fails
    have hnot : ¬ (p.Fits ∧ malloc₃.grants (maxLen p).toInt = true ∧
        ((frame p).length : ℤ) < destsize.toInt) := by
      intro h
      exact hfit ⟨h.1, h.2.1⟩
    have hz := serialization_of_not junk₃ dest hp hnot
    constructor
    · rintro (⟨-, -, hpos, -⟩ | ⟨hfail, -⟩)
      · rw [hz] at hpos
        exact absurd hpos (not_lt.mpr hneg.1.le)
      · rw [hw] at hfail
        exact absurd hfail (lt_irrefl 0)
    · rintro (hlt | ⟨-, hline, hbody, hm⟩)
      · exact absurd hlt (Nat.not_lt.mpr hgt)
      · rw [← hsum hbody] at hm
        exact absurd ⟨⟨hgt, hline, hbody⟩, hm⟩ hfit
  obtain ⟨hfit, hm₃⟩ := hfit
  obtain ⟨hpos, hz⟩ := peek_serialization junk₃ dest hp hfit hm₃ hdest
  rw [hsum hfit.body] at hm₃
  unfold WritersAgree
  dsimp only
  rw [hw, hz]
  constructor
  · rintro (⟨-, -, -, hsame, -⟩ | ⟨hfail, -⟩)
    · rw [hsent] at hsame
      have := eq_of_append_frame (List.append_cancel_left hsame)
      exact Or.inr ⟨hlast.mp this, hfit.line, hfit.body, hm₃⟩
    · exact absurd hfail (lt_irrefl 0)
  · rintro (hlt | ⟨hlt, -, -, -⟩)
    · exact absurd hlt (Nat.not_lt.mpr hgt)
    · obtain ⟨s₂, hm, hsent₂⟩ := writeMo_frame malloc₂ junk₂ hs hp hfit hlt
      rw [hm]
      refine Or.inl ⟨rfl, rfl, hpos, ?_, hsent₂⟩
      rw [hsent, hlast.mpr hlt]
      rfl

/-- The small package, with a destination of 100 bytes. -/
theorem writers_agree_iff_small :
    WritersAgree .plenty .plenty (fun _ => 0) (fun _ => 0) (fun _ => 0) (fun _ => 0) 100
        ⟨[], [3], false⟩ smallPackage ↔
      maxHeadSize < smallPackage.headsize ∨
        (smallPackage.headsize < maxHeadSize ∧ smallPackage.sizeText.length < sizeNum - 1 ∧
          smallPackage.bufsize.toInt ≤ maxBodySize ∧
          Malloc.plenty.grants (sizeNum + maxHeadSize + smallPackage.bufsize.toInt + 20) = true) :=
  writers_agree_iff .plenty .plenty (fun _ => 0) (fun _ => 0) (fun _ => 0) (fun _ => 0)
    ⟨by decide, rfl⟩ smallPackage_sendable.toWellFormed (by decide +kernel)

/-- A package with a head of 10 bytes and a body of 10^9 bytes: its size line
`~BUF! 10 1000000000` has 19 bytes. -/
def largePackage : UlPackage :=
  ulPackPutbuf (ulPackPutvalue ulPackInit (ascii "k") (ascii "vv")).2 (some fun _ => 0) 1000000000

/-- The large package is well formed. -/
theorem largePackage_wellFormed : largePackage.WellFormed :=
  wellFormed_putbuf (ulPackPutvalue_admitted (allAdmitted_of_pairnum rfl) _ _) _ (by decide)

/-- The first writer sends the large package; the other two refuse it, though there is memory and
the destination is large enough. -/
theorem writers_disagree :
    largePackage.WellFormed ∧
      ((frame largePackage).length : ℤ) < (1100000000 : Int32).toInt ∧
      (ulPackWriteoMs (fun _ => 0) ⟨[], [], false⟩ largePackage).1 = 0 ∧
      (ulPackWriteMoMs .plenty (fun _ => 0) ⟨[], [], false⟩ largePackage).1 = -1 ∧
      (ulPackSerialization .plenty (fun _ => 0) (fun _ => 0) 1100000000 largePackage).1 = -1 := by
  have hp := largePackage_wellFormed
  have hhead : largePackage.headsize = 10 := by decide +kernel
  have hline : sizeNum - 1 ≤ largePackage.sizeText.length := by decide +kernel
  have hbody : largePackage.bufsize.toInt = 1000000000 := by decide
  have hnot : ¬ (largePackage.Fits ∧ Malloc.plenty.grants (maxLen largePackage).toInt = true ∧
      ((frame largePackage).length : ℤ) < (1100000000 : Int32).toInt) := by
    intro h
    exact absurd h.1.line (Nat.not_lt.mpr hline)
  refine ⟨hp, ?_, ?_, ?_, ?_⟩
  · rw [length_frame, hhead]
    push_cast
    rw [hp.cast_length_body, hbody]
    decide
  · obtain ⟨s', last, hw, -⟩ := writeo_spec (fun _ => 0)
      (⟨by decide, rfl⟩ : OutSock.ErrorFree ⟨[], [], false⟩) hp (by rw [hhead]; decide)
    rw [hw]
  · rw [writeMo_of_line _ _ hline (by decide +kernel)]
  · rw [serialization_of_not _ _ hp hnot]

/-! ## The readers -/

/-- What stands behind a terminated size line does not matter. -/
theorem Framed.behind {behind behind' s size head body rest : Bytes} {cap : Int32}
    (h0 : 0 ∈ size) (h : Framed behind cap s size head body rest) :
    Framed behind' cap s size head body rest := by
  obtain ⟨heq, hlen, hstart, hh, hb, hlt, hle⟩ := h
  rw [cstr_append_of_mem h0] at hh hb
  rw [← cstr_append_of_mem h0 behind'] at hh hb
  exact ⟨heq, hlen, hstart, hh, hb, hlt, hle⟩

/-- Nor does it for the start of the head parser. -/
theorem headStart_behind {size : Bytes} (h0 : 0 ∈ size) (behind behind' : Bytes)
    (p : UlPackage) : headStart behind size p = headStart behind' size p := by
  rw [headStart, headStart, cstr_append_of_mem h0, cstr_append_of_mem h0]

/-- The size line of a frame is the first 20 bytes. -/
theorem Framed.size_eq {behind s size head body rest : Bytes} {cap : Int32}
    (h : Framed behind cap s size head body rest) : s.take sizeNum = size := by
  rw [h.eq, ← h.size_length, List.take_left]

/-- **The two readers agree**: on bytes whose size line is terminated, with a body of less than
2^30 bytes, they accept the same packages, and what they accept has the same pairs and the same
body. It does not matter in which segments the stream arrives, nor how it ends. -/
theorem readers_agree (behind behind' : Bytes) (junk : Mem UInt8) {s : Bytes} {p : UlPackage}
    (h0 : 0 ∈ s.take sizeNum) (hcap : p.bufsize.toInt < 2 ^ 30) {buf : Mem UInt8}
    {bufsize : Int32} (hbuf : peek buf 0 s.length = s) (hsize : (s.length : ℤ) = bufsize.toInt)
    {sock : Sock} (hstream : sock.stream = s) :
    (0 ≤ (ulPackDeserialization behind buf bufsize p).1 ↔
        0 ≤ (ulPackReadoMs behind' junk sock p).ret) ∧
      (0 ≤ (ulPackDeserialization behind buf bufsize p).1 →
        (ulPackDeserialization behind buf bufsize p).2.pairnum =
            (ulPackReadoMs behind' junk sock p).pkg.pairnum ∧
          (ulPackDeserialization behind buf bufsize p).2.pairs =
            (ulPackReadoMs behind' junk sock p).pkg.pairs ∧
          (ulPackDeserialization behind buf bufsize p).2.body =
            (ulPackReadoMs behind' junk sock p).pkg.block
              (ulPackReadoMs behind' junk sock p).ret.toNat) := by
  subst hstream
  have hint : ∀ tmp h b, scanSizes (cstr (peek buf 0 sizeNum ++ behind)) = (tmp, h, b) →
      h.toInt < maxHeadSize → b.toInt ≤ p.bufsize.toInt →
      sizeNum + h.toInt + b.toInt + bufEof.length < (2 ^ 31 : ℤ) := by
    intro tmp h b _ hh hb
    simp only [sizeNum, maxHeadSize, List.length_cons, List.length_nil] at hh ⊢
    omega
  constructor
  · constructor
    · intro hd
      obtain ⟨size, head, body, rest, st, hframed, hst⟩ :=
        framed_of_deserialization hbuf hsize hint hd
      rw [hframed.size_eq] at h0
      rw [headStart_behind h0 behind behind'] at hst
      obtain ⟨s', hr, -⟩ := reado_of_framed junk (hframed.behind h0) hst
      rw [hr]
      exact Int.natCast_nonneg _
    · intro hr
      obtain ⟨size, head, body, rest, st, hframed, hst⟩ := framed_of_reado hr
      rw [hframed.size_eq] at h0
      rw [headStart_behind h0 behind' behind] at hst
      obtain ⟨b, -, hd⟩ := deserialization_of_framed hbuf hsize (hframed.behind h0) hst
      rw [hd]
      dsimp only
      omega
  · intro hd
    obtain ⟨size, head, body, rest, st, hframed, hst⟩ :=
      framed_of_deserialization hbuf hsize hint hd
    obtain ⟨b, hb, hd⟩ := deserialization_of_framed hbuf hsize hframed hst
    rw [hframed.size_eq] at h0
    rw [headStart_behind h0 behind behind'] at hst
    obtain ⟨s', hr, -⟩ := reado_of_framed junk (hframed.behind h0) hst
    have hlen : b.toNatClampNeg = body.length := by
      rw [← Int32.toNat_toInt, hb, Int.toNat_natCast]
    rw [hd, hr]
    refine ⟨rfl, rfl, ?_⟩
    rw [UlPackage.body, hlen]
    rfl

/-- The small package, from memory and from a socket. -/
theorem readers_agree_small :
    (0 ≤ (ulPackDeserialization [] (ofList (frame smallPackage) fun _ => 0) 37 emptyPackage).1 ↔
        0 ≤ (ulPackReadoMs [] (fun _ => 0) (Sock.ofBytes (frame smallPackage)) emptyPackage).ret) ∧
      (0 ≤ (ulPackDeserialization [] (ofList (frame smallPackage) fun _ => 0) 37 emptyPackage).1 →
        (ulPackDeserialization [] (ofList (frame smallPackage) fun _ => 0) 37
            emptyPackage).2.pairnum =
          (ulPackReadoMs [] (fun _ => 0) (Sock.ofBytes (frame smallPackage))
            emptyPackage).pkg.pairnum ∧
        (ulPackDeserialization [] (ofList (frame smallPackage) fun _ => 0) 37
            emptyPackage).2.pairs =
          (ulPackReadoMs [] (fun _ => 0) (Sock.ofBytes (frame smallPackage))
            emptyPackage).pkg.pairs ∧
        (ulPackDeserialization [] (ofList (frame smallPackage) fun _ => 0) 37
            emptyPackage).2.body =
          (ulPackReadoMs [] (fun _ => 0) (Sock.ofBytes (frame smallPackage))
            emptyPackage).pkg.block
              (ulPackReadoMs [] (fun _ => 0) (Sock.ofBytes (frame smallPackage))
                emptyPackage).ret.toNat) :=
  readers_agree [] [] (fun _ => 0) (by decide +kernel) (by decide) (by decide +kernel)
    (by decide +kernel) (Sock.stream_ofBytes (frame smallPackage))

end Asenal.Pack
