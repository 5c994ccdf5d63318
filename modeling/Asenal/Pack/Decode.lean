import Asenal.Pack.Resync
import Asenal.Pack.Store

/-!
# Decoding into a package

What one call of `ul_pack_deserialization` does to the package it is given, and what that means for
a call that fails and for calls one after another. The decoder stores the body and its size before
it looks at the end marker, and every line of the head before it looks at the next one; the field
`bufsize` is the room for the body before a call and the length of the body behind it.

* `deserialization_cases` — a call refuses the size line, or copies the parts of the frame.
* `deserialization_failed` — what a call that fails leaves unchanged.
* `decodeAll_accepted_iff` — which packages of a run are accepted.
-/

namespace Asenal.Pack

open Asenal.Lib.Text Asenal.Lib.Memory Asenal.Lib.CString

/-! ## One call -/

/-- The size line at the start of an array announces a head of `h` bytes and a body of `b` bytes, and
the decoder allows them for a package with a body of `cap` bytes. -/
structure Announces (behind : Bytes) (buf : Mem UInt8) (cap : Int32) (h b : ℕ) : Prop where
  start : (peek buf 0 sizeNum).take bufStart.length = bufStart
  headsize : (scanSizes (cstr (peek buf 0 sizeNum ++ behind))).2.1.toInt = h
  bodysize : (scanSizes (cstr (peek buf 0 sizeNum ++ behind))).2.2.toInt = b
  head_lt : h < maxHeadSize
  body_le : (b : ℤ) ≤ cap.toInt

/-- The size of the frame with a head of `h` bytes and a body of `b` bytes. -/
def frameSize (h b : ℕ) : ℕ := sizeNum + h + b + bufEof.length

/-- A size line announces one pair of sizes. -/
theorem Announces.unique {behind : Bytes} {buf : Mem UInt8} {cap : Int32} {h b h' b' : ℕ}
    (ha : Announces behind buf cap h b) (ha' : Announces behind buf cap h' b') :
    h' = h ∧ b' = b := by
  have hh := ha'.headsize.symm.trans ha.headsize
  have hb := ha'.bodysize.symm.trans ha.bodysize
  rw [Nat.cast_inj] at hh hb
  exact ⟨hh, hb⟩

/-- What holds of the sizes that are announced. -/
theorem Announces.forall_iff {behind : Bytes} {buf : Mem UInt8} {cap : Int32} {h b : ℕ}
    (ha : Announces behind buf cap h b) {P : ℕ → ℕ → Prop} :
    (∀ h' b', Announces behind buf cap h' b' → P h' b') ↔ P h b := by
  constructor
  · intro hall
    exact hall h b ha
  · intro hP h' b' ha'
    obtain ⟨rfl, rfl⟩ := ha.unique ha'
    exact hP

/-- Sizes that fail a check are not announced. -/
theorem not_announces {behind : Bytes} {buf : Mem UInt8} {cap headsize bodysize : Int32}
    {tmp : Bytes}
    (hz : scanSizes (cstr (peek buf 0 sizeNum ++ behind)) = (tmp, headsize, bodysize))
    (hbad : (headsize < 0 ∨ bodysize < 0) ∨
      (cap < bodysize ∨ (maxHeadSize : ℤ) ≤ headsize.toInt)) (h b : ℕ) :
    ¬ Announces behind buf cap h b := by
  intro ha
  have h₁ := ha.headsize
  have h₂ := ha.bodysize
  have h₃ := ha.head_lt
  have h₄ := ha.body_le
  rw [hz] at h₁ h₂
  rw [Int32.lt_iff_toInt_lt, Int32.lt_iff_toInt_lt, Int32.lt_iff_toInt_lt, h₁, h₂,
    Int32.toInt_zero] at hbad
  omega

/-- Sizes that pass both checks are announced. -/
theorem announces_of_checks {behind : Bytes} {buf : Mem UInt8} {cap headsize bodysize : Int32}
    {tmp : Bytes} (hstart : (peek buf 0 sizeNum).take bufStart.length = bufStart)
    (hz : scanSizes (cstr (peek buf 0 sizeNum ++ behind)) = (tmp, headsize, bodysize))
    (hneg : ¬ (headsize < 0 ∨ bodysize < 0))
    (hlarge : ¬ (cap < bodysize ∨ (maxHeadSize : ℤ) ≤ headsize.toInt)) :
    Announces behind buf cap headsize.toNatClampNeg bodysize.toNatClampNeg := by
  rw [not_or] at hneg hlarge
  have hh := cast_toNat hneg.1
  have hb := cast_toNat hneg.2
  rw [Int32.lt_iff_toInt_lt] at hlarge
  refine ⟨hstart, ?_, ?_, by omega, by omega⟩
  · rw [hz, hh]
  · rw [hz, hb]

/-- `packsize`: the size of the frame as the decoder computes it. -/
def packSize (h b : ℕ) : Int32 := Int32.ofInt (sizeNum + h + b + bufEof.length)

/-- All checks in front of the copies succeed, and a head of `h` bytes and a body of `b` bytes are
copied from an array of `bufsize` bytes. -/
structure Copies (behind : Bytes) (buf : Mem UInt8) (bufsize : Int32) (p : UlPackage) (h b : ℕ) :
    Prop extends Announces behind buf p.bufsize h b where
  pos : 0 < bufsize.toInt
  large : (packSize h b).toInt ≤ bufsize.toInt

/-- `ul_pack_deserialization` from the copy of the head on. -/
def decodeParts (buf : Mem UInt8) (p : UlPackage) (h b : ℕ) : ℤ × UlPackage :=
  let body := peek buf (sizeNum + h) b
  let p := { p.store body with bufsize := Int32.ofInt b }
  if peek buf (sizeNum + h + b) bufEof.length ≠ bufEof then (-1, p)
  else
    match parseHead (cstr (peek buf sizeNum h)) ⟨p.name, p.value, 0, startWord⟩ with
    | .error st => (-1, p.setSlots st)
    | .ok st => ((packSize h b).toInt, { p.setSlots st with pairnum := st.i })

/-- **What one call can do**: it refuses the size line and changes nothing, or it copies the parts
of the frame. -/
theorem deserialization_cases (behind : Bytes) (buf : Mem UInt8) (bufsize : Int32)
    (p : UlPackage) :
    ((∀ h b, ¬ Copies behind buf bufsize p h b) ∧
        ulPackDeserialization behind buf bufsize p = (-1, p)) ∨
      ∃ h b, Copies behind buf bufsize p h b ∧
        ulPackDeserialization behind buf bufsize p = decodeParts buf p h b := by
  unfold ulPackDeserialization
  dsimp only
  by_cases hpos : bufsize ≤ 0
  · rw [if_pos hpos]
    refine Or.inl ⟨fun h b hc => ?_, rfl⟩
    have := hc.pos
    rw [Int32.le_iff_toInt_le, Int32.toInt_zero] at hpos
    omega
  rw [if_neg hpos]
  by_cases hstart : (peek buf 0 sizeNum).take bufStart.length = bufStart
  swap
  · rw [if_pos hstart]
    exact Or.inl ⟨fun h b hc => hstart hc.start, rfl⟩
  rw [if_neg (not_not_intro hstart)]
  have hword := scanSizes_word hstart behind
  generalize hz : scanSizes (cstr (peek buf 0 sizeNum ++ behind)) = z at hword
  obtain ⟨tmp, headsize, bodysize⟩ := z
  simp only at hword
  subst hword
  dsimp only
  by_cases hneg : headsize < 0 ∨ bodysize < 0
  · rw [if_pos hneg]
    exact Or.inl ⟨fun h b hc => not_announces hz (Or.inl hneg) h b hc.toAnnounces, rfl⟩
  rw [if_neg hneg]
  by_cases hlarge : p.bufsize < bodysize ∨ (maxHeadSize : ℤ) ≤ headsize.toInt
  · rw [if_pos hlarge]
    exact Or.inl ⟨fun h b hc => not_announces hz (Or.inr hlarge) h b hc.toAnnounces, rfl⟩
  rw [if_neg hlarge]
  have hann := announces_of_checks hstart hz hneg hlarge
  have hh := cast_toNat (not_or.mp hneg).1
  have hb := cast_toNat (not_or.mp hneg).2
  have hbody : Int32.ofInt bodysize.toNatClampNeg = bodysize := by rw [hb, Int32.ofInt_toInt]
  generalize headsize.toNatClampNeg = h at hh hann ⊢
  generalize bodysize.toNatClampNeg = b at hb hbody hann ⊢
  rw [← hh, ← hb]
  by_cases hshort : bufsize < packSize h b
  · rw [packSize] at hshort
    rw [if_pos hshort]
    refine Or.inl ⟨fun h' b' hc => ?_, rfl⟩
    obtain ⟨rfl, rfl⟩ := hann.unique hc.toAnnounces
    rw [Int32.lt_iff_toInt_lt] at hshort
    exact absurd hshort (not_lt.mpr hc.large)
  · refine Or.inr ⟨h, b, ⟨hann, ?_, ?_⟩, ?_⟩
    · rw [Int32.le_iff_toInt_le, Int32.toInt_zero, not_le] at hpos
      exact hpos
    · rwa [Int32.lt_iff_toInt_lt, not_lt] at hshort
    · rw [packSize] at hshort
      rw [if_neg hshort, ← hbody, decodeParts]
      rfl

/-! ## A call that fails -/

/-- A malformed line leaves the slots behind the lines of the head as they were. -/
theorem parseLines_error_slots {ls : List Bytes} {st st' : HeadScan}
    (h : parseLines ls st = .error st') {i : ℕ} (hi : st.i + ls.length ≤ i) :
    st'.name i = st.name i ∧ st'.value i = st.value i := by
  induction ls generalizing st with
  | nil =>
      rw [parseLines] at h
      cases h
  | cons l ls ih =>
      rw [List.length_cons] at hi
      have hne : i ≠ st.i := by omega
      rw [parseLines] at h
      split_ifs at h
      rcases st.line_cases l with ⟨-, hl⟩ | ⟨-, w, v, hl⟩
      · rw [hl] at h
        cases h
        exact ⟨Function.update_of_ne hne _ _, Function.update_of_ne hne _ _⟩
      · rw [hl] at h
        have hslots : slotsAfter st.i st.tmp l ≤ st.i + 1 := by
          unfold slotsAfter
          split_ifs <;> omega
        obtain ⟨hn, hv⟩ := ih h (by simp only; omega)
        rw [hn, hv]
        exact ⟨Function.update_of_ne hne _ _, Function.update_of_ne hne _ _⟩

/-- The size of a frame is not computed as `-1`. -/
theorem packSize_ne {h b : ℕ} (hh : h < maxHeadSize) (hb : (b : ℤ) < 2 ^ 31) :
    (packSize h b).toInt ≠ -1 := by
  rw [packSize, Int32.toInt_ofInt, Int.bmod_def]
  simp only [sizeNum, maxHeadSize, Int32.size, List.length_cons, List.length_nil] at *
  omega

/-- A call that has copied the parts of the frame and fails. -/
theorem decodeParts_failed {buf : Mem UInt8} {p : UlPackage} {h b : ℕ} (hh : h < maxHeadSize)
    (hb : (b : ℤ) < 2 ^ 31) (hret : (decodeParts buf p h b).1 = -1) :
    (decodeParts buf p h b).2.pairnum = p.pairnum ∧
      (decodeParts buf p h b).2.bufsize = Int32.ofInt b ∧
      (∀ i, (headLines (cstr (peek buf sizeNum h))).length ≤ i →
        (decodeParts buf p h b).2.name i = p.name i ∧
          (decodeParts buf p h b).2.value i = p.value i) ∧
      (peek buf (sizeNum + h + b) bufEof.length ≠ bufEof →
        (decodeParts buf p h b).2.name = p.name ∧ (decodeParts buf p h b).2.value = p.value) := by
  unfold decodeParts at hret ⊢
  dsimp only at hret ⊢
  by_cases heof : peek buf (sizeNum + h + b) bufEof.length ≠ bufEof
  · rw [if_pos heof]
    exact ⟨rfl, rfl, fun _ _ => ⟨rfl, rfl⟩, fun _ => ⟨rfl, rfl⟩⟩
  rw [if_neg heof] at hret ⊢
  cases hparse : parseHead (cstr (peek buf sizeNum h))
      ⟨(p.store (peek buf (sizeNum + h) b)).name, (p.store (peek buf (sizeNum + h) b)).value, 0,
        startWord⟩ with
  | ok st =>
      rw [hparse] at hret
      exact absurd hret (packSize_ne hh hb)
  | error st =>
      refine ⟨rfl, rfl, fun i hi => ?_, fun h' => absurd h' heof⟩
      rw [parseHead_eq] at hparse
      exact parseLines_error_slots hparse (by rwa [Nat.zero_add])

/-- **What a call that fails leaves unchanged**, when the second words that it scans fit in `tmp`, so
that the head parser stays inside its arrays: the number of pairs; the whole package unless the
parts of the frame were copied; then `bufsize` is the announced size of the body, the slots behind
the lines of the head are as they were, and so are all slots unless the end marker was found. -/
theorem deserialization_failed (behind : Bytes) (buf : Mem UInt8) (bufsize : Int32) (p : UlPackage)
    (hwords : ∀ h b, Copies behind buf bufsize p h b →
      peek buf (sizeNum + h + b) bufEof.length = bufEof → WordsFit (peek buf sizeNum h))
    (hret : (ulPackDeserialization behind buf bufsize p).1 = -1) :
    (ulPackDeserialization behind buf bufsize p).2.pairnum = p.pairnum ∧
      ((∀ h b, ¬ Copies behind buf bufsize p h b) →
        (ulPackDeserialization behind buf bufsize p).2 = p) ∧
      ∀ h b, Copies behind buf bufsize p h b →
        (peek buf (sizeNum + h + b) bufEof.length = bufEof →
          ∀ a ∈ (parseLinesT (headLines (cstr (peek buf sizeNum h)))
            ⟨p.name, p.value, 0, startWord⟩).1, a.Safe bufsize) ∧
        (ulPackDeserialization behind buf bufsize p).2.bufsize.toInt = b ∧
        (b : ℤ) ≤ p.bufsize.toInt ∧
        (∀ i, (headLines (cstr (peek buf sizeNum h))).length ≤ i →
          (ulPackDeserialization behind buf bufsize p).2.name i = p.name i ∧
            (ulPackDeserialization behind buf bufsize p).2.value i = p.value i) ∧
        (peek buf (sizeNum + h + b) bufEof.length ≠ bufEof →
          (ulPackDeserialization behind buf bufsize p).2.name = p.name ∧
          (ulPackDeserialization behind buf bufsize p).2.value = p.value ∧
          ∀ pname pvalue size,
            ulPackGetvalueEx (ulPackDeserialization behind buf bufsize p).2 pname pvalue size =
              ulPackGetvalueEx p pname pvalue size) := by
  rcases deserialization_cases behind buf bufsize p with ⟨hno, heq⟩ | ⟨h, b, hc, heq⟩
  · rw [heq]
    exact ⟨rfl, fun _ => rfl, fun h b hc => absurd hc (hno h b)⟩
  rw [heq] at hret ⊢
  have hbmax : (b : ℤ) < 2 ^ 31 := hc.body_le.trans_lt p.bufsize.toInt_lt
  obtain ⟨hnum, hsize, hslots, heof⟩ := decodeParts_failed hc.head_lt hbmax hret
  refine ⟨hnum, fun hno => absurd hc (hno h b), fun h' b' hc' => ?_⟩
  obtain ⟨rfl, rfl⟩ := hc.unique hc'.toAnnounces
  refine ⟨fun hmark => ?_, ?_, hc.body_le, hslots, fun hmark => ?_⟩
  · rw [parseLinesT_safe_iff]
    exact hwords _ _ hc hmark
  · rw [hsize]
    exact Int32.toInt_ofInt_of_le (by omega) hbmax
  · obtain ⟨hn, hv⟩ := heof hmark
    refine ⟨hn, hv, fun pname pvalue size => ?_⟩
    unfold ulPackGetvalueEx UlPackage.find
    rw [hn, hv, hnum]

/-- A frame that ends in `~EOF?` instead of the end marker. -/
def wrongMarker : Bytes := sizeField (sizeText 2 0) ++ crlf ++ ascii "~EOF?"

/-- A package with the pair `k`, `v` and room for a body of 16 bytes. -/
def pairPackage : UlPackage := (ulPackPutvalue emptyPackage (ascii "k") (ascii "v")).2

/-- A frame without an end marker is refused. -/
theorem deserialization_failed_marker :
    (ulPackDeserialization [] (ofList wrongMarker fun _ => 0) 27 pairPackage).1 = -1 ∧
      (ulPackDeserialization [] (ofList wrongMarker fun _ => 0) 27 pairPackage).2.pairnum = 1 := by
  have hret : (ulPackDeserialization [] (ofList wrongMarker fun _ => 0) 27 pairPackage).1 = -1 := by
    decide +kernel
  refine ⟨hret, (deserialization_failed _ _ _ _ (fun h b hc hmark => ?_) hret).1⟩
  -- the size line announces a head of two bytes and no body
  have hh : (2 : ℤ) = h := by
    rw [← hc.headsize]
    decide +kernel
  have hb : (0 : ℤ) = b := by
    rw [← hc.bodysize]
    decide +kernel
  obtain rfl : h = 2 := by omega
  obtain rfl : b = 0 := by omega
  decide +kernel

/-- A call that fails leaves no room for a body, or deletes a value. -/
theorem deserialization_not_atomic :
    (pairPackage.bufsize = 16 ∧
        (ulPackDeserialization [] (ofList wrongMarker fun _ => 0) 27 pairPackage).1 = -1 ∧
        (ulPackDeserialization [] (ofList wrongMarker fun _ => 0) 27 pairPackage).2.bufsize = 0) ∧
      (pairPackage.pairs = [(ascii "k", ascii "v")] ∧
        (ulPackDeserialization [] (ofList malformedFrame.bytes fun _ => 0) 28 pairPackage).1 = -1 ∧
        (ulPackDeserialization [] (ofList malformedFrame.bytes fun _ => 0) 28 pairPackage).2.pairs =
          [([], [])]) := by
  decide +kernel

/-! ## Calls one after another -/

/-- A serialized package in memory: a frame with a well-formed head at the start of an array of `size`
bytes, and what stands in memory behind the array `sizebuf` of the decoder. -/
structure Packet where
  frame : Frame
  rest : Bytes
  mem : Mem UInt8
  size : Int32
  behind : Bytes
  start : frame.size.take bufStart.length = bufStart
  head_lt : frame.head.length < maxHeadSize
  headOk : frame.HeadOk
  peek_eq : peek mem 0 (frame.bytes ++ rest).length = frame.bytes ++ rest
  length_eq : ((frame.bytes ++ rest).length : ℤ) = size.toInt

/-- The length of the body of a serialized package. -/
def Packet.bodySize (k : Packet) : ℕ := k.frame.body.length

/-- Decode one serialized package. -/
def decode (p : UlPackage) (k : Packet) : ℤ × UlPackage :=
  ulPackDeserialization k.behind k.mem k.size p

/-- Decode serialized packages into one package, one after another: what each call returns, and the
package. -/
def decodeAll (p : UlPackage) : List Packet → List (Packet × ℤ) × UlPackage
  | [] => ([], p)
  | k :: ks =>
      let r := decode p k
      let t := decodeAll r.2 ks
      ((k, r.1) :: t.1, t.2)

/-- **One call on a serialized package**: it is accepted iff its body has at most `bufsize` bytes, and
then `bufsize` is the length of its body. -/
theorem decode_cases (p : UlPackage) (k : Packet) :
    ((k.bodySize : ℤ) ≤ p.bufsize.toInt ∧ 0 ≤ (decode p k).1 ∧
        (decode p k).2.bufsize.toInt = k.bodySize) ∨
      (p.bufsize.toInt < k.bodySize ∧ (decode p k).1 = -1 ∧ (decode p k).2 = p) := by
  by_cases hfit : (k.bodySize : ℤ) ≤ p.bufsize.toInt
  · left
    have hfits : k.frame.Fits p.bufsize := ⟨k.start, k.head_lt, hfit⟩
    have hframed := hfits.framed k.behind k.rest
    obtain ⟨st, hst⟩ : ∃ st, parseHead (cstr k.frame.head)
        (headStart k.behind k.frame.size p) = .ok st := by
      rw [parseHead_ok_iff, headStart, scanSizes_word k.start]
      exact k.headOk
    obtain ⟨b, hb, heq⟩ := deserialization_of_framed k.peek_eq k.length_eq hframed hst
    refine ⟨hfit, ?_, ?_⟩
    · rw [decode, heq]
      dsimp only
      omega
    · rw [decode, heq]
      exact hb
  · right
    refine ⟨not_le.mp hfit, ?_⟩
    rcases deserialization_cases k.behind k.mem k.size p with ⟨-, heq⟩ | ⟨h, b, hc, -⟩
    · rw [decode, heq]
      exact ⟨rfl, rfl⟩
    · -- the size line in the array is that of the frame
      have hpeek := k.peek_eq
      rw [Frame.bytes, List.append_assoc] at hpeek
      have hline := (peek_append hpeek).1
      rw [k.frame.size_length] at hline
      have hbody := hc.bodysize
      rw [hline, k.frame.bodysize, Nat.cast_inj] at hbody
      apply absurd hc.body_le
      rw [← hbody]
      exact hfit

/-- A serialized package behind a run is accepted iff its body fits in the room that was there at the
start and is not longer than any body that was accepted. -/
theorem decode_after_iff (p : UlPackage) (ks : List Packet) (k : Packet) :
    0 ≤ (decode (decodeAll p ks).2 k).1 ↔ (k.bodySize : ℤ) ≤ p.bufsize.toInt ∧
      ∀ x ∈ (decodeAll p ks).1, 0 ≤ x.2 → k.bodySize ≤ x.1.bodySize := by
  have hneg : ¬ (0 : ℤ) ≤ -1 := by omega
  induction ks generalizing p with
  | nil =>
      refine Iff.trans ?_ (and_iff_left fun x hx => absurd hx List.not_mem_nil).symm
      rcases decode_cases p k with ⟨hfit, hret, -⟩ | ⟨hbig, hret, -⟩
      · exact iff_of_true hret hfit
      · rw [decodeAll, hret]
        exact iff_of_false hneg (not_le.mpr hbig)
  | cons j ks ih =>
      simp only [decodeAll, List.forall_mem_cons, ih]
      rcases decode_cases p j with ⟨hfit, hret, hsize⟩ | ⟨-, hret, hsame⟩
      · rw [hsize, Nat.cast_le, forall_prop_of_true hret]
        constructor
        · rintro ⟨hle, hrest⟩
          exact ⟨(Nat.cast_le.mpr hle).trans hfit, hle, hrest⟩
        · rintro ⟨-, hle, hrest⟩
          exact ⟨hle, hrest⟩
      · rw [hsame, hret, forall_prop_of_false hneg, true_and]

/-- The lengths of the bodies of at most `cap` bytes, in order. -/
def bodySizes (cap : ℤ) (ks : List Packet) : List ℕ :=
  (ks.map Packet.bodySize).filter fun b : ℕ => decide ((b : ℤ) ≤ cap)

/-- A first body of at most `cap` bytes. -/
theorem bodySizes_cons_of_le {cap : ℤ} {k : Packet} (h : (k.bodySize : ℤ) ≤ cap)
    (ks : List Packet) : bodySizes cap (k :: ks) = k.bodySize :: bodySizes cap ks :=
  List.filter_cons_of_pos (decide_eq_true h)

/-- A first body of more than `cap` bytes. -/
theorem bodySizes_cons_of_lt {cap : ℤ} {k : Packet} (h : ¬ (k.bodySize : ℤ) ≤ cap)
    (ks : List Packet) : bodySizes cap (k :: ks) = bodySizes cap ks :=
  List.filter_cons_of_neg (by simpa using h)

/-- In a run that starts with room for at most `cap` bytes, all bodies of at most `cap` bytes are
accepted iff none is longer than one in front of it, or than the room. -/
theorem decodeAll_all_iff (p : UlPackage) (ks : List Packet) {cap : ℤ}
    (hcap : p.bufsize.toInt ≤ cap) :
    (∀ x ∈ (decodeAll p ks).1, (x.1.bodySize : ℤ) ≤ cap → 0 ≤ x.2) ↔
      (bodySizes cap ks).Pairwise (· ≥ ·) ∧
        ∀ b ∈ bodySizes cap ks, (b : ℤ) ≤ p.bufsize.toInt := by
  have hneg : ¬ (0 : ℤ) ≤ -1 := by omega
  induction ks generalizing p with
  | nil => simp [decodeAll, bodySizes]
  | cons j ks ih =>
      simp only [decodeAll, List.forall_mem_cons]
      rcases decode_cases p j with ⟨hfit, hret, hsize⟩ | ⟨hbig, hret, hsame⟩
      · have hj := hfit.trans hcap
        have hrest := ih (decode p j).2 (by rw [hsize]; exact hj)
        rw [hsize] at hrest
        simp only [Nat.cast_le] at hrest
        rw [bodySizes_cons_of_le hj, List.pairwise_cons, List.forall_mem_cons,
          and_iff_right fun _ => hret]
        apply hrest.trans
        constructor
        · rintro ⟨hpair, hle⟩
          refine ⟨⟨hle, hpair⟩, hfit, fun b hb => ?_⟩
          exact (Nat.cast_le.mpr (hle b hb)).trans hfit
        · rintro ⟨⟨hle, hpair⟩, -⟩
          exact ⟨hpair, hle⟩
      · have hrest := ih p hcap
        rw [hsame, hret]
        by_cases hj : (j.bodySize : ℤ) ≤ cap
        · rw [bodySizes_cons_of_le hj, List.forall_mem_cons]
          refine iff_of_false (fun h => hneg (h.1 hj)) ?_
          rintro ⟨-, hle, -⟩
          exact absurd hle (not_le.mpr hbig)
        · rw [bodySizes_cons_of_lt hj, and_iff_right fun h => absurd h hj]
          exact hrest

/-- **Which packages of a run are accepted**, when the buffer is put once: one is accepted iff its body
has at most `cap` bytes and is not longer than a body that was accepted before. All bodies of at most
`cap` bytes are accepted iff none is longer than one before it. -/
theorem decodeAll_accepted_iff (p : UlPackage) (buffer : Mem UInt8) (cap : Int32)
    (ks : List Packet) :
    (∀ k, 0 ≤ (decode (decodeAll (ulPackPutbuf p (some buffer) cap) ks).2 k).1 ↔
        (k.bodySize : ℤ) ≤ cap.toInt ∧
          ∀ x ∈ (decodeAll (ulPackPutbuf p (some buffer) cap) ks).1,
            0 ≤ x.2 → k.bodySize ≤ x.1.bodySize) ∧
      ((∀ x ∈ (decodeAll (ulPackPutbuf p (some buffer) cap) ks).1,
          (x.1.bodySize : ℤ) ≤ cap.toInt → 0 ≤ x.2) ↔
        (bodySizes cap.toInt ks).Pairwise (· ≥ ·)) := by
  refine ⟨fun k => decode_after_iff _ ks k, ?_⟩
  rw [decodeAll_all_iff (ulPackPutbuf p (some buffer) cap) ks (Int.le_refl cap.toInt)]
  apply and_iff_left
  intro b hb
  exact of_decide_eq_true (List.mem_filter.mp hb).2

/-- A frame as an array of its own. -/
def Packet.ofFrame (f : Frame) (size : Int32) (hstart : f.size.take bufStart.length = bufStart)
    (hhead : f.head.length < maxHeadSize) (hok : f.HeadOk)
    (hlen : (f.bytes.length : ℤ) = size.toInt) : Packet where
  frame := f
  rest := []
  mem := ofList f.bytes fun _ => 0
  size := size
  behind := []
  start := hstart
  head_lt := hhead
  headOk := hok
  peek_eq := by
    rw [List.append_nil]
    exact peek_poke_self _ 0 f.bytes
  length_eq := by
    rw [List.append_nil]
    exact hlen

/-- A package with a body of three bytes. -/
def bodyFrame : Frame :=
  Frame.ofTerminated (sizeField (sizeText 2 3)) crlf (ascii "abc") (by decide +kernel)
    (by decide +kernel) (by decide +kernel) (by decide +kernel)

/-- A package with an empty body. -/
def emptyPacket : Packet :=
  Packet.ofFrame plainFrame 27 (by decide +kernel) (by decide +kernel)
    (by unfold Frame.HeadOk; decide +kernel) (by decide +kernel)

/-- The package with a body of three bytes. -/
def bodyPacket : Packet :=
  Packet.ofFrame bodyFrame 30 (by decide +kernel) (by decide +kernel)
    (by unfold Frame.HeadOk; decide +kernel) (by decide +kernel)

/-- With room for 16 bytes a body of three bytes is refused behind an empty one. -/
theorem decodeAll_refuses :
    bodyPacket.bodySize = 3 ∧ ((ulPackPutbuf ulPackInit (some fun _ => 0) 16).bufsize = 16) ∧
      (decodeAll (ulPackPutbuf ulPackInit (some fun _ => 0) 16) [emptyPacket, bodyPacket]).1.map
        Prod.snd = [27, -1] ∧
      (decodeAll (ulPackPutbuf ulPackInit (some fun _ => 0) 16) [bodyPacket]).1.map
        Prod.snd = [30] := by
  decide +kernel

end Asenal.Pack
