import Asenal.Pack.Head

/-!
# The two readers

`ul_pack_reado_ms` reads a package from a socket, `ul_pack_deserialization` from memory. Both
check the size line, the head, the body and the end marker, and then parse the head.

`Framed` says that bytes begin with a frame whose size line announces its head and its body. It
is exactly what both readers demand of the bytes:

* `reado_parse`, `framed_of_reado` — what `ul_pack_reado_ms` does with a frame, and that it
  accepts nothing else.
* `deserialization_parse`, `framed_of_deserialization` — the same for
  `ul_pack_deserialization`.

What stands in memory behind the array `sizebuf` is a parameter, as `sscanf` reads on when the
array has no terminator; so is the content of fresh arrays.
-/

namespace Asenal.Pack

open Asenal.Lib.Text Asenal.Lib.Memory Asenal.Lib.CString

/-! ## The size line -/

/-- `sscanf(sizebuf, "%s%d%d", tmp, &headsize, &bodysize)`, with both sizes `-1` before: the
word, and the two sizes. -/
def scanSizes (s : Bytes) : Bytes × Int32 × Int32 :=
  match scanS s with
  | none => ([], -1, -1)
  | some (tmp, r) =>
      match scanD r with
      | none => (tmp, -1, -1)
      | some (headsize, r) =>
          match scanD r with
          | none => (tmp, headsize, -1)
          | some (bodysize, _) => (tmp, headsize, bodysize)

/-! ## Reading from a socket -/

/-- What `ul_pack_reado_ms` returns, with the package and the socket it leaves. -/
structure ReadResult where
  ret : ℤ
  pkg : UlPackage
  sock : Sock

/-- Skip to the end marker and reject the package. -/
def reject (junk : Mem UInt8) (p : UlPackage) (s : Sock) : ReadResult :=
  let r := ulPackReadendoMs junk s
  ⟨if r.1 < 0 then -2 else -1, p, r.2⟩

/-- Store bytes in the memory of the body. -/
def UlPackage.store (p : UlPackage) (bs : Bytes) : UlPackage :=
  { p with buf := p.buf.map fun m => poke m 0 bs }

/-- Storing the body leaves the names. -/
@[simp] theorem UlPackage.store_name (p : UlPackage) (bs : Bytes) :
    (p.store bs).name = p.name := rfl

/-- Storing the body leaves the values. -/
@[simp] theorem UlPackage.store_value (p : UlPackage) (bs : Bytes) :
    (p.store bs).value = p.value := rfl

/-- Take over the slots of a parsed head. -/
def UlPackage.setSlots (p : UlPackage) (st : HeadScan) : UlPackage :=
  { p with name := st.name, value := st.value }

/-- `ul_pack_reado_ms` from the head on: read the head, the body and the end marker, and parse
the head. -/
def readParts (junk : Mem UInt8) (s : Sock) (p : UlPackage) (tmp : Bytes)
    (headsize bodysize : Int32) : ReadResult :=
  let (size, headbuf, s) := ulPackReadalloMs s headsize.toNatClampNeg
  if size = -1 then ⟨-2, p, s⟩
  else if size ≠ headsize.toInt then reject junk p s
  else
    let (size, body, s) := ulPackReadalloMs s bodysize.toNatClampNeg
    let p := p.store body
    if size = -1 then ⟨-2, p, s⟩
    else if size ≠ bodysize.toInt then reject junk p s
    else
      let (size, eofstr, s) := ulPackReadalloMs s bufEof.length
      if size = -1 then ⟨-2, p, s⟩
      else if size ≠ (bufEof.length : ℤ) ∨ eofstr ≠ bufEof then reject junk p s
      else
        match parseHead (cstr headbuf) ⟨p.name, p.value, 0, tmp⟩ with
        | .error st => reject junk (p.setSlots st) s
        | .ok st => ⟨bodysize.toInt, { p.setSlots st with pairnum := st.i }, s⟩

/-- Read a package from a socket; `behind` is what stands in memory behind `sizebuf`, and `junk`
what the array of `ul_pack_readendo_ms` holds at first. Source: `ul_pack.cpp`
`ul_pack_reado_ms`. -/
def ulPackReadoMs (behind : Bytes) (junk : Mem UInt8) (s : Sock) (p : UlPackage) : ReadResult :=
  let (size, sizebuf, s) := ulPackReadalloMs s sizeNum
  if size = -1 then ⟨-2, p, s⟩
  else if size ≠ (sizeNum : ℤ) ∨ sizebuf.take bufStart.length ≠ bufStart then reject junk p s
  else
    let (tmp, headsize, bodysize) := scanSizes (cstr (sizebuf ++ behind))
    if headsize < 0 ∨ bodysize < 0 then reject junk p s
    else if p.bufsize < bodysize ∨ (maxHeadSize : ℤ) ≤ headsize.toInt then reject junk p s
    else readParts junk s p tmp headsize bodysize

/-! ## Reading from memory -/

/-- Read a package from the memory `buf` of `bufsize` bytes: what is returned, and the package;
`behind` is what stands in memory behind `sizebuf`. Source: `ul_pack.cpp`
`ul_pack_deserialization`. -/
def ulPackDeserialization (behind : Bytes) (buf : Mem UInt8) (bufsize : Int32) (p : UlPackage) :
    ℤ × UlPackage :=
  if bufsize ≤ 0 then (-1, p)
  else
    let sizebuf := peek buf 0 sizeNum
    if sizebuf.take bufStart.length ≠ bufStart then (-1, p)
    else
      let (tmp, headsize, bodysize) := scanSizes (cstr (sizebuf ++ behind))
      if headsize < 0 ∨ bodysize < 0 then (-1, p)
      else if p.bufsize < bodysize ∨ (maxHeadSize : ℤ) ≤ headsize.toInt then (-1, p)
      else
        let packsize := Int32.ofInt (sizeNum + headsize.toInt + bodysize.toInt + bufEof.length)
        if bufsize < packsize then (-1, p)
        else
          let headbuf := peek buf sizeNum headsize.toNatClampNeg
          let body := peek buf (sizeNum + headsize.toNatClampNeg) bodysize.toNatClampNeg
          let p := { p.store body with bufsize := bodysize }
          let eofstr := peek buf (sizeNum + headsize.toNatClampNeg + bodysize.toNatClampNeg)
            bufEof.length
          if eofstr ≠ bufEof then (-1, p)
          else
            match parseHead (cstr headbuf) ⟨p.name, p.value, 0, tmp⟩ with
            | .error st => (-1, p.setSlots st)
            | .ok st => (packsize.toInt, { p.setSlots st with pairnum := st.i })

/-! ## Frames that are read -/

/-- The bytes `s` begin with a frame that announces its head and its body, of a size that a
reader with a body of `cap` bytes allows. -/
structure Framed (behind : Bytes) (cap : Int32) (s size head body rest : Bytes) : Prop where
  eq : s = size ++ (head ++ (body ++ (bufEof ++ rest)))
  size_length : size.length = sizeNum
  start : size.take bufStart.length = bufStart
  headsize : (scanSizes (cstr (size ++ behind))).2.1.toInt = head.length
  bodysize : (scanSizes (cstr (size ++ behind))).2.2.toInt = body.length
  head_lt : head.length < maxHeadSize
  body_le : (body.length : ℤ) ≤ cap.toInt

/-- The announced sizes are not negative. -/
theorem Framed.sizes_nonneg {behind s size head body rest : Bytes} {cap : Int32}
    (h : Framed behind cap s size head body rest) :
    ¬ (scanSizes (cstr (size ++ behind))).2.1 < 0 ∧
      ¬ (scanSizes (cstr (size ++ behind))).2.2 < 0 := by
  rw [Int32.lt_iff_toInt_lt, Int32.lt_iff_toInt_lt, h.headsize, h.bodysize, Int32.toInt_zero]
  omega

/-- The announced sizes are within the bounds of the reader. -/
theorem Framed.sizes_fit {behind s size head body rest : Bytes} {cap : Int32}
    (h : Framed behind cap s size head body rest) :
    ¬ cap < (scanSizes (cstr (size ++ behind))).2.2 ∧
      ¬ (maxHeadSize : ℤ) ≤ (scanSizes (cstr (size ++ behind))).2.1.toInt := by
  have h₁ := h.head_lt
  have h₂ := h.body_le
  rw [Int32.lt_iff_toInt_lt, h.headsize, h.bodysize]
  omega

/-- Where the parser of the head begins. -/
def headStart (behind : Bytes) (size : Bytes) (p : UlPackage) : HeadScan :=
  ⟨p.name, p.value, 0, (scanSizes (cstr (size ++ behind))).1⟩

/-- The package that is read: its pairs, and its body in the memory of the old one. -/
def UlPackage.received (p : UlPackage) (body : Bytes) (st : HeadScan) : UlPackage :=
  { (p.store body).setSlots st with pairnum := st.i }

/-- A read that gets all it asks for splits the stream. -/
theorem readallo_eq {s : Sock} {n : ℕ} (h : (ulPackReadalloMs s n).1 = n) :
    s.stream = (ulPackReadalloMs s n).2.1 ++ (ulPackReadalloMs s n).2.2.stream ∧
      (ulPackReadalloMs s n).2.1.length = n := by
  obtain ⟨h₁, h₂, h₃, -⟩ := ulPackReadalloMs_spec s n
  rw [h₁] at h
  rw [h₂, h₃, List.take_append_drop, List.length_take]
  refine ⟨rfl, ?_⟩
  split_ifs at h
  omega

/-- A read of bytes that are there gets them. -/
theorem readallo_append {s : Sock} {bs r : Bytes} (h : s.stream = bs ++ r) :
    ∃ s', ulPackReadalloMs s bs.length = ((bs.length : ℤ), bs, s') ∧ s'.stream = r ∧
      s'.broken = s.broken := by
  obtain ⟨h₁, h₂, h₃, h₄⟩ := ulPackReadalloMs_spec s bs.length
  have hlen : bs.length ≤ s.stream.length := by
    rw [h, List.length_append]
    omega
  rw [if_neg (fun hb => absurd hb.2 (Nat.not_lt.mpr hlen)), min_eq_left (by omega)] at h₁
  rw [h, List.take_left] at h₂
  rw [h, List.drop_left] at h₃
  exact ⟨_, Prod.ext h₁ (Prod.ext h₂ rfl), h₃, h₄⟩

/-- A rejected package gives a negative value. -/
theorem reject_neg (junk : Mem UInt8) (p : UlPackage) (s : Sock) : (reject junk p s).ret < 0 := by
  unfold reject
  simp only
  split_ifs <;> decide

/-- A size that is not negative, as a natural number. -/
theorem cast_toNat {b : Int32} (h : ¬ b < 0) : (b.toNatClampNeg : ℤ) = b.toInt := by
  rw [Int32.lt_iff_toInt_lt, Int32.toInt_zero] at h
  apply Int.toNat_of_nonneg
  omega

/-- A step of the reader that can fail or reject: behind an accepted package it did neither. -/
theorem accepted_of_ite {c d : Prop} [Decidable c] [Decidable d] {r₁ r₂ r₃ : ReadResult}
    (h : 0 ≤ (if c then r₁ else if d then r₂ else r₃).ret) (h₁ : r₁.ret < 0) (h₂ : r₂.ret < 0) :
    ¬ c ∧ ¬ d ∧ 0 ≤ r₃.ret := by
  split_ifs at h with hc hd
  · exact absurd h (not_le.mpr h₁)
  · exact absurd h (not_le.mpr h₂)
  · exact ⟨hc, hd, h⟩

/-- What `ul_pack_reado_ms` accepts behind the size line. -/
theorem parts_of_readParts {junk : Mem UInt8} {s : Sock} {p : UlPackage} {tmp : Bytes}
    {headsize bodysize : Int32} (hh : ¬ headsize < 0) (hb : ¬ bodysize < 0)
    (h : 0 ≤ (readParts junk s p tmp headsize bodysize).ret) :
    ∃ head body rest st, s.stream = head ++ (body ++ (bufEof ++ rest)) ∧
      headsize.toInt = head.length ∧ bodysize.toInt = body.length ∧
      parseHead (cstr head) ⟨p.name, p.value, 0, tmp⟩ = .ok st := by
  have hneg : (-2 : ℤ) < 0 := by omega
  unfold readParts at h
  -- the head
  have hr₁ := @readallo_eq s headsize.toNatClampNeg
  rw [cast_toNat hh] at hr₁
  generalize ulPackReadalloMs s headsize.toNatClampNeg = r₁ at h hr₁
  obtain ⟨size₁, head, s₁⟩ := r₁
  obtain ⟨-, hn₁, h⟩ := accepted_of_ite h hneg (reject_neg _ _ _)
  obtain ⟨hs₁, hl₁⟩ := hr₁ (not_not.mp hn₁)
  -- the body
  have hr₂ := @readallo_eq s₁ bodysize.toNatClampNeg
  rw [cast_toNat hb] at hr₂
  dsimp only at h hs₁ hl₁
  generalize ulPackReadalloMs s₁ bodysize.toNatClampNeg = r₂ at h hr₂
  obtain ⟨size₂, body, s₂⟩ := r₂
  obtain ⟨-, hn₂, h⟩ := accepted_of_ite h hneg (reject_neg _ _ _)
  obtain ⟨hs₂, hl₂⟩ := hr₂ (not_not.mp hn₂)
  -- the end marker
  have hr₃ := @readallo_eq s₂ bufEof.length
  dsimp only at h hs₂ hl₂
  generalize ulPackReadalloMs s₂ bufEof.length = r₃ at h hr₃
  obtain ⟨size₃, eofstr, s₃⟩ := r₃
  obtain ⟨-, hn₃, h⟩ := accepted_of_ite h hneg (reject_neg _ _ _)
  rw [not_or, not_not, not_not] at hn₃
  obtain ⟨hs₃, -⟩ := hr₃ hn₃.1
  dsimp only at h hs₃ hn₃
  cases hparse : parseHead (cstr head) ⟨p.name, p.value, 0, tmp⟩ with
  | error st =>
      rw [UlPackage.store_name, UlPackage.store_value, hparse] at h
      exact absurd h (not_le.mpr (reject_neg _ _ _))
  | ok st =>
      refine ⟨head, body, s₃.stream, st, ?_, ?_, ?_, hparse⟩
      · rw [hs₁, hs₂, hs₃, hn₃.2]
      · rw [hl₁, cast_toNat hh]
      · rw [hl₂, cast_toNat hb]

/-- **What `ul_pack_reado_ms` accepts** is a frame whose head is parsed without an error. -/
theorem framed_of_reado {behind : Bytes} {junk : Mem UInt8} {s : Sock} {p : UlPackage}
    (h : 0 ≤ (ulPackReadoMs behind junk s p).ret) :
    ∃ size head body rest st, Framed behind p.bufsize s.stream size head body rest ∧
      parseHead (cstr head) (headStart behind size p) = .ok st := by
  have hneg : (-2 : ℤ) < 0 := by omega
  unfold ulPackReadoMs at h
  have hr := @readallo_eq s sizeNum
  generalize ulPackReadalloMs s sizeNum = r at h hr
  obtain ⟨size, sizebuf, s₁⟩ := r
  obtain ⟨-, hn, h⟩ := accepted_of_ite h hneg (reject_neg _ _ _)
  rw [not_or, not_not, not_not] at hn
  obtain ⟨hs, hl⟩ := hr hn.1
  dsimp only at h hs hl hn
  obtain ⟨hsign, hlarge, h⟩ := accepted_of_ite h (reject_neg _ _ _) (reject_neg _ _ _)
  rw [not_or] at hsign hlarge
  obtain ⟨head, body, rest, st, hparts, hh, hb, hparse⟩ := parts_of_readParts hsign.1 hsign.2 h
  refine ⟨sizebuf, head, body, rest, st, ⟨?_, hl, hn.2, hh, hb, ?_, ?_⟩, hparse⟩
  · rw [hs, hparts]
  · have := hlarge.2
    omega
  · have := hlarge.1
    rw [Int32.not_lt, Int32.le_iff_toInt_le] at this
    omega

/-- What `ul_pack_reado_ms` does with the parts behind the size line: it parses the head when it
has read them all. -/
theorem readParts_parse (junk : Mem UInt8) {s : Sock} {p : UlPackage} {tmp : Bytes}
    {headsize bodysize : Int32} {head body rest : Bytes}
    (hs : s.stream = head ++ (body ++ (bufEof ++ rest))) (hh : headsize.toInt = head.length)
    (hb : bodysize.toInt = body.length) :
    ∃ s', s'.stream = rest ∧ s'.broken = s.broken ∧
      readParts junk s p tmp headsize bodysize =
        match parseHead (cstr head) ⟨p.name, p.value, 0, tmp⟩ with
        | .error st => reject junk ((p.store body).setSlots st) s'
        | .ok st => ⟨body.length, p.received body st, s'⟩ := by
  obtain ⟨s₁, hr₁, hs₁, hb₁⟩ := readallo_append hs
  obtain ⟨s₂, hr₂, hs₂, hb₂⟩ := readallo_append hs₁
  obtain ⟨s₃, hr₃, hs₃, hb₃⟩ := readallo_append hs₂
  refine ⟨s₃, hs₃, by rw [hb₃, hb₂, hb₁], ?_⟩
  have hhnat : headsize.toNatClampNeg = head.length := by
    rw [← Int32.toNat_toInt, hh, Int.toNat_natCast]
  have hbnat : bodysize.toNatClampNeg = body.length := by
    rw [← Int32.toNat_toInt, hb, Int.toNat_natCast]
  have hpos : ∀ n : ℕ, (n : ℤ) ≠ -1 := by
    intro n
    omega
  have heof : ¬ ((bufEof.length : ℤ) ≠ (bufEof.length : ℤ) ∨ bufEof ≠ bufEof) := by simp
  unfold readParts
  rw [hhnat, hr₁, hh]
  dsimp only
  rw [if_neg (hpos _), if_neg (not_not_intro rfl), hbnat, hr₂, hb]
  dsimp only
  rw [if_neg (hpos _), if_neg (not_not_intro rfl), hr₃]
  dsimp only
  rw [if_neg (hpos _), if_neg heof, UlPackage.store_name, UlPackage.store_value]
  rfl

/-- **What `ul_pack_reado_ms` does with a frame** whose sizes it allows: it reads the whole frame
and parses the head. -/
theorem reado_parse {behind : Bytes} (junk : Mem UInt8) {s : Sock} {p : UlPackage}
    {size head body rest : Bytes} (h : Framed behind p.bufsize s.stream size head body rest) :
    ∃ s', s'.stream = rest ∧ s'.broken = s.broken ∧
      ulPackReadoMs behind junk s p =
        match parseHead (cstr head) (headStart behind size p) with
        | .error st => reject junk ((p.store body).setSlots st) s'
        | .ok st => ⟨body.length, p.received body st, s'⟩ := by
  obtain ⟨s₁, hr₁, hs₁, hb₁⟩ := readallo_append h.eq
  obtain ⟨s', hs', hb', hr⟩ := readParts_parse junk hs₁ h.headsize h.bodysize
  refine ⟨s', hs', hb'.trans hb₁, ?_⟩
  rw [h.size_length] at hr₁
  have hneg := h.sizes_nonneg
  have hfits := h.sizes_fit
  unfold ulPackReadoMs
  rw [hr₁]
  dsimp only
  rw [if_neg (by decide), if_neg (not_or.mpr ⟨not_not_intro rfl, not_not_intro h.start⟩),
    if_neg (not_or.mpr hneg), if_neg (not_or.mpr hfits), hr]
  rfl

/-- A frame whose head is parsed without an error is accepted: the body and the pairs of the head
are stored, and the stream is left behind the frame. -/
theorem reado_of_framed {behind : Bytes} (junk : Mem UInt8) {s : Sock} {p : UlPackage}
    {size head body rest : Bytes} {st : HeadScan}
    (h : Framed behind p.bufsize s.stream size head body rest)
    (hparse : parseHead (cstr head) (headStart behind size p) = .ok st) :
    ∃ s', ulPackReadoMs behind junk s p = ⟨body.length, p.received body st, s'⟩ ∧
      s'.stream = rest ∧ s'.broken = s.broken := by
  obtain ⟨s', hs', hb', hr⟩ := reado_parse junk h
  rw [hparse] at hr
  exact ⟨s', hr, hs', hb'⟩

/-- The size of a frame whose parts are in memory, as the reader computes it. -/
theorem toInt_packsize (a b : ℤ) (ha : 0 ≤ a) (hb : 0 ≤ b)
    (h : sizeNum + a + b + bufEof.length < 2 ^ 31) :
    (Int32.ofInt (sizeNum + a + b + bufEof.length)).toInt = sizeNum + a + b + bufEof.length :=
  Int32.toInt_ofInt_of_le (by omega) h

/-- **What `ul_pack_deserialization` does with a frame** whose sizes it allows: it stores the body,
makes its size the size of the package's body, and parses the head. -/
theorem deserialization_parse {behind : Bytes} {buf : Mem UInt8} {bufsize : Int32}
    {p : UlPackage} {s size head body rest : Bytes}
    (hbuf : peek buf 0 s.length = s) (hlen : (s.length : ℤ) = bufsize.toInt)
    (h : Framed behind p.bufsize s size head body rest) :
    ∃ b : Int32, b.toInt = body.length ∧ ulPackDeserialization behind buf bufsize p =
      match parseHead (cstr head) (headStart behind size p) with
      | .error st => (-1, { (p.store body).setSlots st with bufsize := b })
      | .ok st => ((sizeNum + head.length + body.length + bufEof.length : ℤ),
          { p.received body st with bufsize := b }) := by
  refine ⟨(scanSizes (cstr (size ++ behind))).2.2, h.bodysize, ?_⟩
  have hneg := h.sizes_nonneg
  have hfits := h.sizes_fit
  have hslen := congrArg List.length h.eq
  simp only [List.length_append, h.size_length] at hslen
  have hmax := bufsize.toInt_lt
  have hpack : (Int32.ofInt (sizeNum + head.length + body.length + bufEof.length)).toInt =
      sizeNum + head.length + body.length + bufEof.length :=
    toInt_packsize _ _ (by omega) (by omega) (by omega)
  have hpos : ¬ bufsize ≤ 0 := by
    rw [Int32.le_iff_toInt_le, Int32.toInt_zero, ← hlen, hslen]
    simp only [sizeNum]
    omega
  have hshort : ¬ bufsize < Int32.ofInt (sizeNum + head.length + body.length + bufEof.length) := by
    rw [Int32.lt_iff_toInt_lt, hpack]
    omega
  -- the parts of the frame in memory
  rw [h.eq] at hbuf
  obtain ⟨hsize, hbuf⟩ := peek_append hbuf
  obtain ⟨hhead, hbuf⟩ := peek_append hbuf
  obtain ⟨hbody, hbuf⟩ := peek_append hbuf
  obtain ⟨heof, -⟩ := peek_append hbuf
  rw [h.size_length] at hsize hhead hbody heof
  rw [Nat.zero_add] at hhead hbody heof
  have hhnat : (scanSizes (cstr (size ++ behind))).2.1.toNatClampNeg = head.length := by
    rw [← Int32.toNat_toInt, h.headsize, Int.toNat_natCast]
  have hbnat : (scanSizes (cstr (size ++ behind))).2.2.toNatClampNeg = body.length := by
    rw [← Int32.toNat_toInt, h.bodysize, Int.toNat_natCast]
  unfold ulPackDeserialization
  dsimp only
  rw [if_neg hpos, hsize, if_neg (not_not_intro h.start), if_neg (not_or.mpr hneg),
    if_neg (not_or.mpr hfits), h.headsize, h.bodysize, if_neg hshort, hhnat, hbnat, hhead, hbody,
    heof, if_neg (not_not_intro rfl), UlPackage.store_name, UlPackage.store_value, hpack]
  rfl

/-- A frame in memory whose head is parsed without an error is accepted. -/
theorem deserialization_of_framed {behind : Bytes} {buf : Mem UInt8} {bufsize : Int32}
    {p : UlPackage} {s size head body rest : Bytes} {st : HeadScan}
    (hbuf : peek buf 0 s.length = s) (hlen : (s.length : ℤ) = bufsize.toInt)
    (h : Framed behind p.bufsize s size head body rest)
    (hparse : parseHead (cstr head) (headStart behind size p) = .ok st) :
    ∃ b : Int32, b.toInt = body.length ∧ ulPackDeserialization behind buf bufsize p =
      ((sizeNum + head.length + body.length + bufEof.length : ℤ),
        { p.received body st with bufsize := b }) := by
  obtain ⟨b, hb, heq⟩ := deserialization_parse hbuf hlen h
  rw [hparse] at heq
  exact ⟨b, hb, heq⟩

/-- A check of the reader: an accepted package passed it. -/
theorem accepted_of_check {c : Prop} [Decidable c] {q : UlPackage} {r : ℤ × UlPackage}
    (h : 0 ≤ (if c then ((-1 : ℤ), q) else r).1) : ¬ c ∧ 0 ≤ r.1 := by
  split_ifs at h with hc
  · exact absurd h (by omega : ¬ (0 : ℤ) ≤ -1)
  · exact ⟨hc, h⟩

/-- **What `ul_pack_deserialization` accepts** is a frame whose head is parsed without an error,
provided that the announced size of the frame is an `int` when it is computed. -/
theorem framed_of_deserialization {behind : Bytes} {buf : Mem UInt8} {bufsize : Int32}
    {p : UlPackage} {s : Bytes} (hbuf : peek buf 0 s.length = s)
    (hlen : (s.length : ℤ) = bufsize.toInt)
    (hcap : ∀ tmp h b, scanSizes (cstr (peek buf 0 sizeNum ++ behind)) = (tmp, h, b) →
      h.toInt < maxHeadSize → b.toInt ≤ p.bufsize.toInt →
      sizeNum + h.toInt + b.toInt + bufEof.length < 2 ^ 31)
    (h : 0 ≤ (ulPackDeserialization behind buf bufsize p).1) :
    ∃ size head body rest st, Framed behind p.bufsize s size head body rest ∧
      parseHead (cstr head) (headStart behind size p) = .ok st := by
  unfold ulPackDeserialization at h
  dsimp only at h
  obtain ⟨-, h⟩ := accepted_of_check h
  obtain ⟨hstart, h⟩ := accepted_of_check h
  generalize hz : scanSizes (cstr (peek buf 0 sizeNum ++ behind)) = z at h
  obtain ⟨tmp, headsize, bodysize⟩ := z
  dsimp only at h
  obtain ⟨hsign, h⟩ := accepted_of_check h
  obtain ⟨hlarge, h⟩ := accepted_of_check h
  obtain ⟨hshort, h⟩ := accepted_of_check h
  obtain ⟨heof, h⟩ := accepted_of_check h
  rw [not_or] at hsign hlarge
  have hh := cast_toNat hsign.1
  have hb := cast_toNat hsign.2
  have hbody : bodysize.toInt ≤ p.bufsize.toInt := by
    have := hlarge.1
    rwa [Int32.not_lt, Int32.le_iff_toInt_le] at this
  have hhead := not_le.mp hlarge.2
  have hint := hcap _ _ _ hz hhead hbody
  -- the whole frame lies within the buffer
  have hpack := toInt_packsize headsize.toInt bodysize.toInt (by omega) (by omega) (by omega)
  rw [Int32.not_lt, Int32.le_iff_toInt_le, hpack, ← hlen, ← hh, ← hb] at hshort
  obtain ⟨k, hk⟩ : ∃ k, s.length = sizeNum + (headsize.toNatClampNeg + (bodysize.toNatClampNeg +
      (bufEof.length + k))) :=
    ⟨s.length - (sizeNum + headsize.toNatClampNeg + bodysize.toNatClampNeg + bufEof.length), by
      omega⟩
  rw [hk, peek_add, peek_add, peek_add, peek_add, Nat.zero_add] at hbuf
  rw [not_not] at hstart heof
  rw [heof] at hbuf
  cases hparse : parseHead (cstr (peek buf sizeNum headsize.toNatClampNeg))
      ⟨p.name, p.value, 0, tmp⟩ with
  | error st =>
      rw [UlPackage.store_name, UlPackage.store_value, hparse] at h
      exact absurd h (by omega : ¬ (0 : ℤ) ≤ -1)
  | ok st =>
      refine ⟨_, peek buf sizeNum headsize.toNatClampNeg,
        peek buf (sizeNum + headsize.toNatClampNeg) bodysize.toNatClampNeg, _, st,
        ⟨hbuf.symm, length_peek _ _ _, hstart, ?_, ?_, ?_, ?_⟩, ?_⟩
      · rw [hz, length_peek, hh]
      · rw [hz, length_peek, hb]
      · rw [length_peek]
        omega
      · rw [length_peek, hb]
        exact hbody
      · rw [headStart, hz]
        exact hparse

end Asenal.Pack
