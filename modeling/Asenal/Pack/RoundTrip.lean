import Asenal.Pack.Readers
import Asenal.Pack.Writers

/-!
# Round trips

What is written is read back.

* `reado_writeo_stream` — packages that are written to a connection one after the other are read
  from it one after the other, with their pairs and their bodies, and each read leaves the stream
  at the start of the next package.
* `deserialization_serialization_iff` — a package that was filled with `ul_pack_putvalue` and
  serialized is read back exactly if all its names are words and its head is smaller than 26000
  bytes.
-/

namespace Asenal.Pack

open Asenal.Lib.Text Asenal.Lib.Memory Asenal.Lib.CString

/-! ## The size line -/

/-- A text has no `0`. -/
theorem not_mem_dec (n : ℕ) : 0 ∉ dec n := by
  intro h
  exact absurd (isDigit_of_mem_dec h) (by decide)

/-- A size that is not negative is printed as a natural number. -/
theorem decInt_of_nonneg {z : ℤ} (h : 0 ≤ z) : decInt z = dec z.toNat := by
  rw [decInt, if_neg (not_lt.mpr h)]
  congr 1
  omega

/-- The size line, as a C string: the text and its padding. -/
theorem cstr_sizeField {line : Bytes} (h0 : 0 ∉ line) (hlen : line.length < sizeNum) (r : Bytes) :
    ∃ pad, cstr (sizeField line ++ r) = line ++ pad ∧ Delimited pad := by
  unfold sizeField
  split_ifs with hpad
  · refine ⟨32 :: List.replicate (sizeNum - 2 - line.length) 64, ?_, by simp [Delimited, isSpace]⟩
    rw [List.append_assoc _ [0], List.singleton_append]
    refine cstr_append_nul ?_ r
    simp [h0]
  · refine ⟨[], ?_, by simp [Delimited]⟩
    rw [List.take_of_length_le (by omega), List.append_assoc, List.singleton_append,
      cstr_append_nul h0, List.append_nil]

/-- **The sizes are read back** from a size line that fits with its terminator. -/
theorem scanSizes_sizeField {p : UlPackage} (hp : p.WellFormed)
    (hlen : p.sizeText.length < sizeNum) (behind : Bytes) :
    scanSizes (cstr (sizeField p.sizeText ++ behind)) =
      ([126, 66, 85, 70, 33], toInt32 p.headsize, p.bufsize) := by
  have hdec := decInt_of_nonneg hp.toInt_bufsize_nonneg
  have h0 : 0 ∉ p.sizeText := by
    simp only [UlPackage.sizeText, sizeText, hdec, List.mem_append, not_or]
    exact ⟨⟨⟨by decide, not_mem_dec _⟩, by decide⟩, not_mem_dec _⟩
  obtain ⟨pad, hcstr, hpad⟩ := cstr_sizeField h0 hlen behind
  have htext : p.sizeText ++ pad = [126, 66, 85, 70, 33] ++
      32 :: (dec p.headsize ++ 32 :: (dec p.bufsize.toInt.toNat ++ pad)) := by
    simp only [UlPackage.sizeText, sizeText, hdec, List.append_assoc]
    rfl
  have hword : ∀ b ∈ ([126, 66, 85, 70, 33] : Bytes), isSpace b = false := by simp [isSpace]
  have hbody : toInt32 (p.bufsize.toInt.toNat : ℕ) = p.bufsize := by
    rw [Int.toNat_of_nonneg hp.toInt_bufsize_nonneg, toInt32_toInt]
  rw [hcstr, htext, scanSizes,
    scanS_append (List.cons_ne_nil _ _) hword (by simp [Delimited, isSpace])]
  simp only
  rw [scanD_cons_of_isSpace (by decide), scanD_dec _ (by simp [isDigit])]
  simp only
  rw [scanD_cons_of_isSpace (by decide),
    scanD_dec _ fun b hb => isDigit_of_isSpace (hpad b hb), hbody]

/-- A size line begins with `BUF_START`. -/
theorem take_sizeField (h : ℕ) (b : Int32) :
    (sizeField (sizeText h b)).take bufStart.length = bufStart := by
  have htext : sizeText h b = bufStart ++ (dec h ++ ([32] ++ decInt b.toInt)) := by
    simp only [sizeText, List.append_assoc]
  unfold sizeField
  split_ifs
  · rw [htext, List.append_assoc, List.append_assoc, List.take_left]
  · rw [htext]
    rfl

/-! ## Frames are framed -/

/-- A head size that a reader allows is announced exactly. -/
theorem toInt_headsize {n : ℕ} (h : n ≤ maxHeadSize) : (toInt32 n).toInt = n := by
  simp only [maxHeadSize] at h
  have hclamp : max (-2 ^ 63) (min (n : ℤ) (2 ^ 63 - 1)) = n := by omega
  rw [toInt32, hclamp, Int32.toInt_ofInt_of_le (by omega) (by omega)]

/-- **A frame is a frame to the readers**, whatever follows it. -/
theorem framed_frame (behind : Bytes) {cap : Int32} {p : UlPackage} (hp : p.WellFormed)
    (hhead : p.headsize < maxHeadSize) (hline : p.sizeText.length < sizeNum)
    (hcap : p.bufsize ≤ cap) (rest : Bytes) :
    Framed behind cap (frame p ++ rest) (sizeField p.sizeText) (headText p.pairs) p.body rest := by
  refine ⟨by simp only [frame, List.append_assoc], length_sizeField _, take_sizeField _ _, ?_, ?_,
    hhead, ?_⟩
  · rw [scanSizes_sizeField hp hline, toInt_headsize hhead.le]
    rfl
  · rw [scanSizes_sizeField hp hline, hp.cast_length_body]
  · rw [hp.cast_length_body]
    exact Int32.le_iff_toInt_le.mp hcap

/-- What makes the pairs of a package survive the head: the names are words, and no value has a
line end. -/
structure UlPackage.Parsable (p : UlPackage) : Prop extends UlPackage.WellFormed p where
  names : p.NamesOk
  no_crlf : ∀ x ∈ p.pairs, ¬ crlf <:+: x.2

/-- The head of a package is parsed into its pairs. -/
theorem parseHead_package (behind size : Bytes) {p : UlPackage} (q : UlPackage)
    (hp : p.Parsable) :
    ∃ st, parseHead (cstr (headText p.pairs)) (headStart behind size q) = .ok st ∧
      st.pairs = p.pairs := by
  have hgood : ∀ x ∈ p.pairs, GoodPair x := by
    intro x hx
    obtain ⟨hname, hvalue⟩ := hp.items x hx
    exact ⟨hp.names x hx, hname.length_lt, hvalue.length_lt, hp.no_crlf x hx⟩
  have hnul : 0 ∉ headText p.pairs := by
    apply not_mem_headText
    intro x hx
    exact ⟨(hp.items x hx).1.noNul, (hp.items x hx).2.noNul⟩
  have hnum : p.pairs.length ≤ maxPackItemNum := by
    rw [UlPackage.pairs, length_slots]
    exact hp.pairnum_le
  rw [cstr_of_not_mem hnul]
  obtain ⟨st, hst, hpairs⟩ := parseHead_headText (headStart behind size q) hgood
    (by rw [headStart, Nat.zero_add]; exact hnum)
  exact ⟨st, hst, hpairs⟩

/-- The body of a package is in memory as far as it says. -/
def UlPackage.HasBuffer (p : UlPackage) : Prop := p.buf = none → p.bufsize ≤ 0

/-- The body that is received is in the memory of the body. -/
theorem UlPackage.block_received {p : UlPackage} {body : Bytes} (hp : p.HasBuffer)
    (hle : (body.length : ℤ) ≤ p.bufsize.toInt) (st : HeadScan) :
    (p.received body st).block body.length = body := by
  unfold UlPackage.block UlPackage.received UlPackage.setSlots UlPackage.store
  cases hb : p.buf with
  | none =>
      have := hp hb
      rw [Int32.le_iff_toInt_le, Int32.toInt_zero] at this
      have hnil : body.length = 0 := by omega
      exact (List.length_eq_zero_iff.mp hnil).symm
  | some m => exact peek_poke_self m 0 body

/-! ## Streams of packages -/

/-- A package that the writers and the readers are made for: its names are words, its names and
values have no separators, and its head and its size line fit. -/
structure UlPackage.Sendable (p : UlPackage) : Prop extends UlPackage.WellFormed p where
  names : p.NamesOk
  no_crlf : ∀ x ∈ p.pairs, ¬ crlf <:+: x.1 ∧ ¬ crlf <:+: x.2
  no_sep : ∀ x ∈ p.pairs, ¬ sep <:+: x.1 ∧ ¬ sep <:+: x.2
  head_lt : p.headsize < maxHeadSize
  line_lt : p.sizeText.length < sizeNum

/-- Write packages one after the other; `none` when a call fails. -/
def writeRun (junk : Mem UInt8) (s : OutSock) : List UlPackage → Option OutSock
  | [] => some s
  | p :: ps =>
      let r := ulPackWriteoMs junk s p
      if r.1 = 0 then writeRun junk r.2 ps else none

/-- One call of `ul_pack_reado_ms` for each of the packages `ps`, into the packages `qs`: every
call returns the size of the body, the pairs and the body, and leaves the stream at the start of
the next package; `rest` is what stands behind the last one. -/
def Delivers (behind : Bytes) (junk : Mem UInt8) :
    Sock → List UlPackage → List UlPackage → Bytes → Prop
  | _, [], _, _ => True
  | _, _ :: _, [], _ => False
  | s, p :: ps, q :: qs, rest =>
      let r := ulPackReadoMs behind junk s q
      r.ret = p.bufsize.toInt ∧ r.pkg.pairs = p.pairs ∧ r.pkg.block r.ret.toNat = p.body ∧
        r.sock.stream = ps.flatMap frame ++ rest ∧ Delivers behind junk r.sock ps qs rest

/-- One package is read back, and the stream is left behind its frame. -/
theorem reado_frame (behind : Bytes) (junk : Mem UInt8) {s : Sock} {p q : UlPackage}
    {rest : Bytes} (hp : p.Sendable) (hle : p.bufsize ≤ q.bufsize) (hq : q.HasBuffer)
    (hs : s.stream = frame p ++ rest) :
    ∃ r : ReadResult, ulPackReadoMs behind junk s q = r ∧ r.ret = p.bufsize.toInt ∧
      r.pkg.pairs = p.pairs ∧ r.pkg.block r.ret.toNat = p.body ∧ r.sock.stream = rest := by
  have hframed := framed_frame behind hp.toWellFormed hp.head_lt hp.line_lt hle rest
  rw [← hs] at hframed
  obtain ⟨st, hst, hpairs⟩ := parseHead_package behind (sizeField p.sizeText) q
    ⟨hp.toWellFormed, hp.names, fun x hx => (hp.no_crlf x hx).2⟩
  obtain ⟨s', hr, hs', -⟩ := reado_of_framed junk hframed hst
  refine ⟨_, hr, hp.cast_length_body, hpairs, ?_, hs'⟩
  exact UlPackage.block_received hq hframed.body_le st

/-- Sendable packages are all sent, frame by frame. -/
theorem writeRun_spec (junk : Mem UInt8) {o : OutSock} (ho : o.ErrorFree) {ps : List UlPackage}
    (hps : ∀ p ∈ ps, p.Sendable) :
    ∃ o', writeRun junk o ps = some o' ∧ o'.sent = o.sent ++ ps.flatMap frame := by
  induction ps generalizing o with
  | nil => exact ⟨o, rfl, by simp⟩
  | cons p ps ih =>
      have hp := hps p List.mem_cons_self
      obtain ⟨o₁, last, hw, he, hsent, hlast⟩ := writeo_spec junk ho hp.toWellFormed hp.head_lt.le
      rw [hlast.mpr hp.head_lt] at hsent
      obtain ⟨o', hrun, hsent'⟩ := ih he fun q hq => hps q (List.mem_cons_of_mem p hq)
      refine ⟨o', ?_, ?_⟩
      · rw [writeRun, hw]
        exact hrun
      · rw [hsent', hsent, List.flatMap_cons, List.append_assoc]
        rfl

/-- Frames are delivered one after the other. -/
theorem delivers_frames (behind : Bytes) (junk : Mem UInt8) {s : Sock} {ps qs : List UlPackage}
    {rest : Bytes} (hps : ∀ p ∈ ps, p.Sendable) (hs : s.stream = ps.flatMap frame ++ rest)
    (hqs : List.Forall₂ (fun p q => p.bufsize ≤ q.bufsize ∧ q.HasBuffer) ps qs) :
    Delivers behind junk s ps qs rest := by
  induction hqs generalizing s with
  | nil => trivial
  | @cons p q ps qs hpq hrest ih =>
      rw [List.flatMap_cons, List.append_assoc] at hs
      obtain ⟨r, hr, hret, hpairs, hbody, hs'⟩ :=
        reado_frame behind junk (hps p List.mem_cons_self) hpq.1 hpq.2 hs
      rw [Delivers, hr]
      exact ⟨hret, hpairs, hbody, hs', ih (fun x hx => hps x (List.mem_cons_of_mem p hx)) hs'⟩

/-- **A stream of packages**: packages that are written one after the other to an error-free
connection are read back one after the other, whatever the packages are that receive them, if
only their bodies are large enough. -/
theorem reado_writeo_stream (behind : Bytes) (junk junk' : Mem UInt8) {o : OutSock}
    (ho : o.ErrorFree) (ps : List UlPackage) (hps : ∀ p ∈ ps, p.Sendable) :
    ∃ o', writeRun junk o ps = some o' ∧ o'.sent = o.sent ++ ps.flatMap frame ∧
      ∀ (s : Sock) (qs : List UlPackage) (rest : Bytes), o.sent ++ s.stream = o'.sent ++ rest →
        List.Forall₂ (fun p q => p.bufsize ≤ q.bufsize ∧ q.HasBuffer) ps qs →
          Delivers behind junk' s ps qs rest := by
  obtain ⟨o', hrun, hsent⟩ := writeRun_spec junk ho hps
  refine ⟨o', hrun, hsent, ?_⟩
  intro s qs rest hs hqs
  apply delivers_frames behind junk' hps _ hqs
  rw [hsent, List.append_assoc] at hs
  exact List.append_cancel_left hs

/-- A package with the pair `k : v` and the body `xyz`. -/
def smallPackage : UlPackage :=
  ulPackPutbuf (ulPackPutvalue ulPackInit (ascii "k") (ascii "v")).2
    (some (ofList (ascii "xyz") fun _ => 0)) 3

/-- An empty package with room for a body of 16 bytes. -/
def emptyPackage : UlPackage := ulPackPutbuf ulPackInit (some fun _ => 0) 16

/-- The small package can be sent. -/
theorem smallPackage_sendable : smallPackage.Sendable := by
  have hpairs : smallPackage.pairs = [(ascii "k", ascii "v")] := by decide +kernel
  have hall : ∀ {P : Bytes × Bytes → Prop}, P (ascii "k", ascii "v") →
      ∀ x ∈ smallPackage.pairs, P x := by
    intro P hP x hx
    rw [hpairs, List.mem_singleton] at hx
    rw [hx]
    exact hP
  exact ⟨⟨by decide, hall ⟨⟨by decide, by decide⟩, ⟨by decide, by decide⟩⟩, by decide, by decide⟩,
    hall ⟨by decide, by decide +kernel⟩, hall ⟨by decide, by decide⟩,
    hall ⟨by decide, by decide⟩, by decide +kernel, by decide +kernel⟩

/-- Two small packages, over a connection that takes three bytes first. -/
theorem reado_writeo_stream_two :
    ∃ o', writeRun (fun _ => 0) ⟨[], [3], false⟩ [smallPackage, smallPackage] = some o' ∧
      Delivers [] (fun _ => 0) (Sock.ofBytes o'.sent) [smallPackage, smallPackage]
        [emptyPackage, emptyPackage] [] := by
  have herr : OutSock.ErrorFree ⟨[], [3], false⟩ := ⟨by decide, rfl⟩
  have hroom : smallPackage.bufsize ≤ emptyPackage.bufsize ∧ emptyPackage.HasBuffer :=
    ⟨by decide, fun h => absurd h (Option.some_ne_none _)⟩
  obtain ⟨o', hrun, -, h⟩ := reado_writeo_stream [] (fun _ => 0) (fun _ => 0) herr
    [smallPackage, smallPackage] (by simp [smallPackage_sendable])
  exact ⟨o', hrun, h (Sock.ofBytes o'.sent) [emptyPackage, emptyPackage] [] (by simp)
    (.cons hroom (.cons hroom .nil))⟩

/-! ## Serialized packages -/

/-- A package filled with `ul_pack_putvalue` and `ul_pack_putbuf` is well formed. -/
theorem wellFormed_putbuf {p : UlPackage} (h : p.AllAdmitted) (body : Mem UInt8) {b : Int32}
    (hb : 0 ≤ b) : (ulPackPutbuf p (some body) b).WellFormed :=
  ⟨h.pairnum_le, fun x hx => ⟨(h.admitted x hx).1.toIsItem, (h.admitted x hx).2.toIsItem⟩, hb,
    fun hnone => absurd hnone (Option.some_ne_none body)⟩

/-- A frame in memory is read back when the names are words and the head is small enough. -/
theorem deserialization_frame (behind : Bytes) {buf : Mem UInt8} {bufsize : Int32}
    {p q : UlPackage} (hp : p.Parsable) (hhead : p.headsize < maxHeadSize)
    (hline : p.sizeText.length < sizeNum) (hbuf : peek buf 0 (frame p).length = frame p)
    (hsize : ((frame p).length : ℤ) = bufsize.toInt) (hle : p.bufsize ≤ q.bufsize)
    (hq : q.HasBuffer) :
    (ulPackDeserialization behind buf bufsize q).1 = bufsize.toInt ∧
      (ulPackDeserialization behind buf bufsize q).2.pairs = p.pairs ∧
      (ulPackDeserialization behind buf bufsize q).2.body = p.body := by
  have hframed := framed_frame behind hp.toWellFormed hhead hline hle []
  rw [List.append_nil] at hframed
  obtain ⟨st, hst, hpairs⟩ := parseHead_package behind (sizeField p.sizeText) q hp
  obtain ⟨b, hb, heq⟩ := deserialization_of_framed hbuf hsize hframed hst
  rw [heq]
  refine ⟨?_, hpairs, ?_⟩
  · rw [← hsize, length_frame]
    rfl
  · have hlen : b.toNatClampNeg = p.body.length := by
      rw [← Int32.toNat_toInt, hb, Int.toNat_natCast]
    rw [UlPackage.body, hlen]
    exact UlPackage.block_received hq hframed.body_le st

/-- If a frame in memory is accepted with its pairs, its names are words and its head is smaller
than the maximal size. -/
theorem names_of_deserialization {behind : Bytes} {buf : Mem UInt8} {bufsize : Int32}
    {p q : UlPackage} (hp : p.WellFormed) (hhead : p.headsize ≤ maxHeadSize)
    (hline : p.sizeText.length < sizeNum) (hbuf : peek buf 0 (frame p).length = frame p)
    (hsize : ((frame p).length : ℤ) = bufsize.toInt)
    (hret : 0 ≤ (ulPackDeserialization behind buf bufsize q).1)
    (hpairs : (ulPackDeserialization behind buf bufsize q).2.pairs = p.pairs) :
    p.NamesOk ∧ p.headsize < maxHeadSize := by
  have hscan := scanSizes_sizeField hp hline behind
  have hfirst : peek buf 0 sizeNum = sizeField p.sizeText := by
    rw [frame, List.append_assoc, List.append_assoc] at hbuf
    have := (peek_append hbuf).1
    rwa [length_sizeField] at this
  have hmax := bufsize.toInt_lt
  rw [← hsize, length_frame] at hmax
  push_cast at hmax
  rw [hp.cast_length_body] at hmax
  have hint : ∀ tmp h b, scanSizes (cstr (peek buf 0 sizeNum ++ behind)) = (tmp, h, b) →
      h.toInt < maxHeadSize → b.toInt ≤ q.bufsize.toInt →
      sizeNum + h.toInt + b.toInt + bufEof.length < (2 ^ 31 : ℤ) := by
    intro tmp h b hz _ _
    rw [hfirst, hscan] at hz
    cases hz
    rw [toInt_headsize hhead]
    exact hmax
  obtain ⟨size, head, body, rest, st, hframed, hst⟩ :=
    framed_of_deserialization hbuf hsize hint hret
  obtain rfl : size = sizeField p.sizeText := by
    have heq := hframed.eq
    rw [frame, List.append_assoc, List.append_assoc] at heq
    exact (List.append_inj heq (by rw [length_sizeField, hframed.size_length])).1.symm
  have hlen := hframed.headsize
  rw [hscan, toInt_headsize hhead] at hlen
  obtain ⟨b, -, heq⟩ := deserialization_of_framed hbuf hsize hframed hst
  have hwords : st.Words := by
    apply parseHead_words _ hst
    intro x hx
    exact absurd hx List.not_mem_nil
  rw [heq] at hpairs
  constructor
  · intro x hx
    apply hwords
    rw [← hpairs] at hx
    exact hx
  · have := hframed.head_lt
    omega

/-- **When a serialized package is read back**: a package `p` was filled with successful calls of
`ul_pack_putvalue` and given a body, and `ul_pack_serialization` returned a positive number of
bytes. Reading these bytes into a package whose body is large enough returns their number and
yields the pairs and the body of `p` iff all names are words and the head has not exactly the
maximal size. -/
theorem deserialization_serialization_iff (behind : Bytes) (malloc : Malloc)
    (junk dest : Mem UInt8) {destsize : Int32} {p₀ p₁ p : UlPackage} (h₀ : p₀.pairnum = 0)
    {l : List (Bytes × Bytes)} (hput : putAll p₀ l = some p₁) {body : Mem UInt8} {b : Int32} (hb : 0 ≤ b)
    (hbody : p = ulPackPutbuf p₁ (some body) b)
    (hret : 0 < (ulPackSerialization malloc junk dest destsize p).1)
    {buf : Mem UInt8} {bufsize : Int32}
    (hsize : bufsize.toInt = (ulPackSerialization malloc junk dest destsize p).1)
    (hbuf : peek buf 0 bufsize.toInt.toNat =
      peek (ulPackSerialization malloc junk dest destsize p).2 0 bufsize.toInt.toNat)
    {q : UlPackage} (hle : p.bufsize ≤ q.bufsize) (hq : q.HasBuffer) :
    ((ulPackDeserialization behind buf bufsize q).1 = bufsize.toInt ∧
        (ulPackDeserialization behind buf bufsize q).2.pairs = p.pairs ∧
        (ulPackDeserialization behind buf bufsize q).2.body = p.body) ↔
      p.NamesOk ∧ p.headsize ≠ maxHeadSize := by
  have hadm := putAll_admitted (allAdmitted_of_pairnum h₀) hput
  have hp : p.WellFormed := hbody ▸ wellFormed_putbuf hadm body hb
  have hvals : ∀ x ∈ p.pairs, ¬ crlf <:+: x.2 := by
    intro x hx
    rw [hbody] at hx
    exact (hadm.admitted x hx).2.no_crlf
  by_cases hfits : p.Fits ∧ malloc.grants (maxLen p).toInt = true ∧
      ((frame p).length : ℤ) < destsize.toInt
  swap
  · rw [serialization_of_not junk dest hp hfits] at hret
    exact absurd hret (by omega : ¬ (0 : ℤ) < -1)
  rw [serialization_of_fits junk dest hp hfits.1 hfits.2.1 hfits.2.2] at hsize hbuf
  dsimp only at hsize hbuf
  rw [hsize, Int.toNat_natCast, peek_poke_self] at hbuf
  have hline : p.sizeText.length < sizeNum := lt_of_lt_of_le hfits.1.line (Nat.sub_le _ _)
  constructor
  · rintro ⟨hr, hpairs, -⟩
    have hnonneg : 0 ≤ (ulPackDeserialization behind buf bufsize q).1 := by
      rw [hr, hsize]
      omega
    obtain ⟨hnames, hlt⟩ :=
      names_of_deserialization hp hfits.1.head hline hbuf hsize.symm hnonneg hpairs
    exact ⟨hnames, Nat.ne_of_lt hlt⟩
  · rintro ⟨hnames, hne⟩
    exact deserialization_frame behind ⟨hp, hnames, hvals⟩
      (lt_of_le_of_ne hfits.1.head hne) hline hbuf hsize.symm hle hq

/-- The small package is read back from its serialization. -/
theorem deserialization_serialization_iff_small :
    ((ulPackDeserialization []
          (ulPackSerialization .plenty (fun _ => 0) (fun _ => 0) 100 smallPackage).2 37
          emptyPackage).1 = (37 : Int32).toInt ∧
        (ulPackDeserialization []
          (ulPackSerialization .plenty (fun _ => 0) (fun _ => 0) 100 smallPackage).2 37
          emptyPackage).2.pairs = smallPackage.pairs ∧
        (ulPackDeserialization []
          (ulPackSerialization .plenty (fun _ => 0) (fun _ => 0) 100 smallPackage).2 37
          emptyPackage).2.body = smallPackage.body) ↔
      smallPackage.NamesOk ∧ smallPackage.headsize ≠ maxHeadSize := by
  have hput : putAll ulPackInit [(ascii "k", ascii "v")] =
      some (ulPackPutvalue ulPackInit (ascii "k") (ascii "v")).2 := rfl
  exact deserialization_serialization_iff [] .plenty (fun _ => 0) (fun _ => 0) rfl hput
    (by decide) rfl (by decide +kernel) (by decide +kernel) rfl (by decide)
    fun h => absurd h (Option.some_ne_none _)

/-- A package with the name `a b`. -/
def blankName : UlPackage :=
  ulPackPutbuf (ulPackPutvalue ulPackInit (ascii "a b") (ascii "v")).2 (some fun _ => 0) 0

/-- The name `a b` is admitted and serialized, and the bytes are accepted, but the pair is
lost. -/
theorem deserialization_loses_pair :
    (ulPackPutvalue ulPackInit (ascii "a b") (ascii "v")).1 = 0 ∧
      blankName.pairs = [(ascii "a b", ascii "v")] ∧
      (ulPackSerialization .plenty (fun _ => 0) (fun _ => 0) 100 blankName).1 = 36 ∧
      (ulPackDeserialization []
        (ulPackSerialization .plenty (fun _ => 0) (fun _ => 0) 100 blankName).2 36
        emptyPackage).1 = 36 ∧
      (ulPackDeserialization []
        (ulPackSerialization .plenty (fun _ => 0) (fun _ => 0) 100 blankName).2 36
        emptyPackage).2.pairs = [] := by
  refine ⟨?_, ?_, ?_, ?_, ?_⟩ <;> decide +kernel

end Asenal.Pack
