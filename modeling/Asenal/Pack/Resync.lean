import Asenal.Pack.HeadAccess
import Asenal.Pack.RoundTrip

/-!
# Behind a rejected package

When `ul_pack_reado_ms` rejects a package it skips to the next end marker with
`ul_pack_readendo_ms`, whatever part of the package it has read. Here a stream is a sequence of
frames, and the question is whether a rejection leaves the stream at the start of a frame.

* `readend_spec` — `ul_pack_readendo_ms` finds the first end marker of the stream.
* `stores_safe_iff` — what one call stores fits in the arrays iff the second words of the lines
  that are scanned fit in `tmp`.
* `resynchronises_iff` — the calls of a run stay inside their arrays and at the starts of frames iff
  every frame that does not fit contains no end marker of its own, and a frame that fits has second
  words that fit in `tmp`, and a well-formed head unless it is the last one.
-/

namespace Asenal.Pack

open Asenal.Lib.Text Asenal.Lib.Memory Asenal.Lib.CString

/-! ## The first end marker -/

/-- What follows the first end marker of a text. -/
def afterEof (s : Bytes) : Option Bytes := (strstr bufEof s).map fun k => s.drop (k + bufEof.length)

/-- A byte that no marker begins with is skipped. -/
theorem afterEof_cons {b : UInt8} {s : Bytes} (h : ¬ bufEof <+: b :: s) :
    afterEof (b :: s) = afterEof s := by
  unfold afterEof
  rw [strstr, if_neg h, Option.map_map]
  rfl

/-- A text without `~` is skipped. -/
theorem afterEof_append {a : Bytes} (h : 126 ∉ a) (s : Bytes) : afterEof (a ++ s) = afterEof s := by
  induction a with
  | nil => rfl
  | cons b a ih =>
      rw [List.mem_cons, not_or] at h
      rw [List.cons_append, afterEof_cons, ih h.2]
      rw [List.cons_prefix_cons]
      exact fun e => h.1 e.1

/-- A marker at the start. -/
theorem afterEof_self (s : Bytes) : afterEof (bufEof ++ s) = some s := by
  rw [afterEof, strstr_append_self (List.cons_ne_nil _ _)]
  rfl

/-- No text has a marker iff the marker does not occur. -/
theorem afterEof_eq_none_iff (s : Bytes) : afterEof s = none ↔ ¬ bufEof <:+: s := by
  rw [afterEof, Option.map_eq_none_iff, strstr_eq_none_iff]

/-- A started marker that is not completed is skipped. -/
theorem afterEof_started {t s : Bytes} (ht : 126 ∉ t) (h : ¬ bufEof <+: 126 :: (t ++ s)) :
    afterEof (126 :: t ++ s) = afterEof s := by
  rw [List.cons_append, afterEof_cons h, afterEof_append ht]

/-- A marker that begins in front of another one ends in front of it. -/
theorem eof_prefix_append {a s : Bytes} (ha : a ≠ []) (h : bufEof <+: a ++ (bufEof ++ s)) :
    bufEof <+: a := by
  by_cases hlen : bufEof.length ≤ a.length
  · exact List.prefix_of_prefix_length_le h (List.prefix_append a _) hlen
  · exfalso
    obtain ⟨r, hr⟩ := h
    have hget := congrArg (fun l => l[a.length]?) hr
    simp only [List.getElem?_append_right (Nat.le_refl _), Nat.sub_self] at hget
    have hpos := List.length_pos_of_ne_nil ha
    have hlt : a.length < 5 := not_le.mp hlen
    interval_cases a.length <;> simp at hget

/-- A marker inside a text is found before what follows the text. -/
theorem afterEof_of_infix {a : Bytes} (h : bufEof <:+: a) (s : Bytes) :
    ∃ t, afterEof (a ++ s) = some (t ++ s) := by
  induction a with
  | nil => simp at h
  | cons b a ih =>
      by_cases hp : bufEof <+: b :: a
      · obtain ⟨t, ht⟩ := hp
        refine ⟨t, ?_⟩
        rw [← ht, List.append_assoc, afterEof_self]
      · have ha := (List.infix_cons_iff.mp h).resolve_left hp
        obtain ⟨t, ht⟩ := ih ha
        by_cases hp' : bufEof <+: b :: (a ++ s)
        · obtain ⟨r, hr⟩ := hp'
          have hle : bufEof.length ≤ (b :: a).length := ha.length_le.trans (Nat.le_succ _)
          exact absurd (List.prefix_of_prefix_length_le ⟨r, hr⟩
            (List.prefix_append (b :: a) s) hle) hp
        · exact ⟨t, by rw [List.cons_append, afterEof_cons hp', ht]⟩

/-- **The first marker is the one behind a text** iff the text contains none. -/
theorem afterEof_append_eof (a s : Bytes) :
    afterEof (a ++ (bufEof ++ s)) = some s ↔ ¬ bufEof <:+: a := by
  constructor
  · intro h hinf
    obtain ⟨t, ht⟩ := afterEof_of_infix hinf (bufEof ++ s)
    rw [h, Option.some_inj] at ht
    have := congrArg List.length ht
    simp only [List.length_append, List.length_cons] at this
    omega
  · intro h
    induction a with
    | nil => exact afterEof_self s
    | cons b a ih =>
        rw [List.infix_cons_iff, not_or] at h
        rw [List.cons_append, afterEof_cons, ih h.2]
        exact fun hp => h.1 (eof_prefix_append (List.cons_ne_nil b a) hp)

/-! ## The scan -/

/-- What `ul_pack_readendo_ms` has collected: nothing, or a `~` and at most three more bytes. -/
def EndScan.Holds (st : EndScan) (w : Bytes) : Prop :=
  (w = [] ∧ st.flag = false ∧ st.pend = 0) ∨
    (st.flag = true ∧ st.pend = w.length ∧ st.count = w.length ∧ peek st.tmp 0 w.length = w ∧
      ∃ t, w = 126 :: t ∧ 126 ∉ t ∧ t.length < 4)

/-- A byte that is stored behind the collected ones. -/
theorem EndScan.peek_poke {tmp : Mem UInt8} {w : Bytes} (c : UInt8)
    (h : peek tmp 0 w.length = w) : peek (poke tmp w.length [c]) 0 (w ++ [c]).length = w ++ [c] := by
  rw [List.length_append, peek_poke_extend tmp [c] (Nat.zero_add w.length).symm, h]

/-- **What a byte does to the scan**: it completes the marker, or it is skipped with the bytes
collected so far, or it is collected. -/
theorem EndScan.step_cases {st : EndScan} {w : Bytes} (h : st.Holds w) (c : UInt8) :
    (st.step c = none ∧ w ++ [c] = bufEof) ∨
      ∃ st' w', st.step c = some st' ∧ st'.Holds w' ∧
        ∀ s, afterEof (w ++ c :: s) = afterEof (w' ++ s) := by
  rcases h with ⟨rfl, hflag, hpend⟩ | ⟨hflag, hpend, hcount, hpeek, t, rfl, ht, hlen⟩
  · -- nothing is collected
    right
    by_cases hc : c = 126
    · subst hc
      refine ⟨⟨poke st.tmp st.pend [126], st.pend + 1, true, 1⟩, [126], ?_, ?_, fun s => rfl⟩
      · simp [EndScan.step, hflag]
      · refine Or.inr ⟨rfl, by simp [hpend], rfl, ?_, [], rfl, List.not_mem_nil, by simp⟩
        rw [hpend]
        exact peek_poke_self st.tmp 0 [126]
    · refine ⟨⟨poke st.tmp st.pend [c], st.pend, false, st.count⟩, [], ?_, ?_, ?_⟩
      · simp [EndScan.step, hflag, hc]
      · exact Or.inl ⟨rfl, rfl, hpend⟩
      · intro s
        apply afterEof_cons
        rw [List.cons_prefix_cons]
        exact fun e => hc e.1.symm
  · by_cases hc : c = 126
    · -- the bytes so far are dropped
      subst hc
      right
      refine ⟨⟨poke (poke st.tmp st.pend [126]) 0 [126], 1, true, 1⟩, [126], ?_, ?_, ?_⟩
      · simp [EndScan.step, hflag]
      · refine Or.inr ⟨rfl, rfl, rfl, ?_, [], rfl, List.not_mem_nil, by simp⟩
        exact peek_poke_self _ 0 [126]
      · intro s
        apply afterEof_started ht
        intro hp
        have hmem := (List.cons_prefix_cons.mp hp).2
        obtain ⟨r, hr⟩ := hmem
        have hget := congrArg (fun l => l[t.length]?) hr
        simp only [List.getElem?_append_right (Nat.le_refl _), Nat.sub_self,
          List.getElem?_cons_zero] at hget
        interval_cases t.length <;> simp at hget
    · have hpeek' := EndScan.peek_poke c hpeek
      by_cases hfull : t.length = 3
      · have hcnt : st.count + 1 = bufEof.length := by
          rw [hcount, List.length_cons, hfull]
          rfl
        have hread : peek (poke (poke st.tmp st.pend [c]) (st.count + 1) [0]) 0 bufEof.length =
            126 :: t ++ [c] := by
          rw [peek_poke_before _ _ (by omega), hpend]
          have hlen' : bufEof.length = (126 :: t ++ [c]).length := by simp [hfull]
          rw [hlen', hpeek']
        by_cases hmark : 126 :: t ++ [c] = bufEof
        · refine Or.inl ⟨?_, hmark⟩
          simp only [EndScan.step, hflag, if_true, if_neg hc, if_pos hcnt, hread, if_pos hmark]
        · right
          refine ⟨⟨poke (poke st.tmp st.pend [c]) (st.count + 1) [0], 0, false, 0⟩, [], ?_,
            Or.inl ⟨rfl, rfl, rfl⟩, ?_⟩
          · simp only [EndScan.step, hflag, if_true, if_neg hc, if_pos hcnt, hread, if_neg hmark]
          · intro s
            have htc : 126 ∉ t ++ [c] := by
              simp [ht, Ne.symm hc]
            rw [List.append_cons, List.cons_append, List.nil_append]
            apply afterEof_started htc
            rintro ⟨r, hr⟩
            apply hmark
            rw [← List.cons_append] at hr
            have := (List.append_inj hr (by simp [hfull])).1
            rw [this, List.cons_append]
      · right
        have hcnt : st.count + 1 ≠ bufEof.length := by
          rw [hcount, List.length_cons, ne_eq]
          change ¬ t.length + 1 + 1 = 5
          omega
        refine ⟨⟨poke st.tmp st.pend [c], st.pend + 1, true, st.count + 1⟩, 126 :: t ++ [c], ?_, ?_,
          ?_⟩
        · simp only [EndScan.step, hflag, if_true, if_neg hc, if_neg hcnt]
        · refine Or.inr ⟨rfl, ?_, ?_, ?_, t ++ [c], rfl, ?_, ?_⟩
          · rw [hpend, List.length_append, List.length_singleton]
          · rw [hcount, List.length_append, List.length_singleton]
          · rw [hpend]
            exact hpeek'
          · simp [ht, Ne.symm hc]
          · rw [List.length_append, List.length_singleton]
            omega
        · intro s
          rw [List.append_cons]

/-- One round of the loop of `ul_pack_readendo_ms`. -/
theorem readend_eq (s : Sock) (st : EndScan) :
    readend s st = match s.read 1 with
      | none => (-1, s)
      | some ([], s) => (-1, s)
      | some (c :: _, s') =>
          match st.step c with
          | none => (0, s')
          | some st => readend s' st := by
  rw [readend]
  split
  next h => rw [h]
  next h => rw [h]
  next c _ s' h =>
    cases hstep : st.step c with
    | none => simp only [h, hstep]
    | some st' => simp only [h, hstep]

/-- The loop of `ul_pack_readendo_ms` finds the first marker of the collected bytes and the
stream. -/
theorem readend_of_holds {s : Sock} {st : EndScan} {w : Bytes} (h : st.Holds w) :
    match afterEof (w ++ s.stream) with
    | some r => (readend s st).1 = 0 ∧ (readend s st).2.stream = r
    | none => (readend s st).1 = -1 := by
  induction hn : s.stream.length using Nat.strongRecOn generalizing s st w with
  | _ n ih =>
      have hshort : w.length < 5 := by
        rcases h with ⟨rfl, -, -⟩ | ⟨-, -, -, -, t, rfl, -, hlen⟩
        · simp
        · rw [List.length_cons]
          omega
      have hnone : s.stream = [] → afterEof (w ++ s.stream) = none := by
        intro hs
        rw [hs, List.append_nil, afterEof_eq_none_iff]
        intro hinf
        have := hinf.length_le
        change 5 ≤ w.length at this
        omega
      rcases s.read_cases Nat.one_pos with ⟨hs, -, hr⟩ | ⟨hs, -, hr⟩ | ⟨c, bs, s', hr, hs, -, hlen⟩
      · rw [hnone hs, readend_eq, hr]
      · rw [hnone hs, readend_eq, hr]
      · obtain rfl : bs = [] := List.length_eq_zero_iff.mp (by omega)
        rw [readend_eq, hr, hs, List.cons_append, List.nil_append]
        dsimp only
        rcases EndScan.step_cases h c with ⟨hnext, hmark⟩ | ⟨st', w', hnext, hw', hafter⟩
        · rw [hnext, List.append_cons, hmark, afterEof_self]
          exact ⟨rfl, rfl⟩
        · rw [hnext, hafter]
          apply ih _ _ hw' rfl
          rw [← hn, hs, List.length_append, List.length_singleton]
          omega

/-- **`ul_pack_readendo_ms` finds the first end marker** of the stream and leaves the stream behind
it; without one it fails. -/
theorem readend_spec (junk : Mem UInt8) (s : Sock) :
    match afterEof s.stream with
    | some r => (ulPackReadendoMs junk s).1 = 0 ∧ (ulPackReadendoMs junk s).2.stream = r
    | none => (ulPackReadendoMs junk s).1 = -1 :=
  @readend_of_holds s ⟨junk, 0, false, 0⟩ [] (Or.inl ⟨rfl, rfl, rfl⟩)

/-- A rejection leaves the stream behind the next end marker. -/
theorem reject_of_some (junk : Mem UInt8) (p : UlPackage) {s : Sock} {r : Bytes}
    (h : afterEof s.stream = some r) :
    (reject junk p s).ret = -1 ∧ (reject junk p s).sock.stream = r := by
  have hend := readend_spec junk s
  rw [h] at hend
  simp only at hend
  simp [reject, hend.1, hend.2]

/-- Without an end marker the connection is given up. -/
theorem reject_of_none (junk : Mem UInt8) (p : UlPackage) {s : Sock}
    (h : afterEof s.stream = none) : (reject junk p s).ret = -2 := by
  have hend := readend_spec junk s
  rw [h] at hend
  simp only at hend
  simp [reject, hend]

/-! ## Streams of frames -/

/-- A frame: a size line of 20 bytes, a head and a body of the announced sizes (whatever stands
in memory behind the size line when it is scanned), and the end marker behind them. -/
structure Frame where
  size : Bytes
  head : Bytes
  body : Bytes
  size_length : size.length = sizeNum
  headsize : ∀ behind, (scanSizes (cstr (size ++ behind))).2.1.toInt = head.length
  bodysize : ∀ behind, (scanSizes (cstr (size ++ behind))).2.2.toInt = body.length

/-- The bytes of a frame. -/
def Frame.bytes (f : Frame) : Bytes := f.size ++ (f.head ++ (f.body ++ bufEof))

/-- A stream of frames. -/
def stream (fs : List Frame) : Bytes := fs.flatMap Frame.bytes

/-- A reader with a body of `cap` bytes allows the size line of the frame. -/
def Frame.Fits (f : Frame) (cap : Int32) : Prop :=
  f.size.take bufStart.length = bufStart ∧ f.head.length < maxHeadSize ∧
    (f.body.length : ℤ) ≤ cap.toInt

/-- All lines of the head that a reader reaches are well formed. -/
def Frame.HeadOk (f : Frame) : Prop := LinesOk (headLines (cstr f.head)) 0 startWord

/-- The second words of the lines that a reader scans fit in its array `tmp`. -/
def Frame.WordsFit (f : Frame) : Prop := Pack.WordsFit f.head

/-- There is no end marker in the head and the body, nor across their border. -/
def Frame.NoInnerEof (f : Frame) : Prop := ¬ bufEof <:+: f.head ++ f.body

/-- The first word that is scanned from a size line. -/
theorem scanSizes_word {size : Bytes} (h : size.take bufStart.length = bufStart) (behind : Bytes) :
    (scanSizes (cstr (size ++ behind))).1 = startWord := by
  obtain ⟨r, hr⟩ : ∃ r, cstr (size ++ behind) = startWord ++ 32 :: r := by
    rw [← List.take_append_drop bufStart.length size, h]
    exact ⟨_, rfl⟩
  have hword : ∀ b ∈ startWord, isSpace b = false := by simp [startWord, isSpace]
  have hne : startWord ≠ [] := List.cons_ne_nil _ _
  rw [hr, scanSizes, scanS_append hne hword (by simp [Delimited, isSpace])]
  simp only
  split
  · rfl
  · split <;> rfl

/-- A frame that fits is a frame to the reader. -/
theorem Frame.Fits.framed {f : Frame} {cap : Int32} (h : f.Fits cap) (behind rest : Bytes) :
    Framed behind cap (f.bytes ++ rest) f.size f.head f.body rest :=
  ⟨by simp only [Frame.bytes, List.append_assoc], f.size_length, h.1, f.headsize behind,
    f.bodysize behind, h.2.1, h.2.2⟩

/-- A frame that does not fit is rejected when its size line has been read. -/
theorem reado_of_not_fits (behind : Bytes) (junk : Mem UInt8) {s : Sock} {p : UlPackage}
    {f : Frame} {rest : Bytes} (h : ¬ f.Fits p.bufsize) (hs : s.stream = f.bytes ++ rest) :
    ∃ s', ulPackReadoMs behind junk s p = reject junk p s' ∧
      s'.stream = f.head ++ f.body ++ (bufEof ++ rest) := by
  have hparts : s.stream = f.size ++ (f.head ++ f.body ++ (bufEof ++ rest)) := by
    rw [hs, Frame.bytes]
    simp only [List.append_assoc]
  obtain ⟨s₁, hr₁, hs₁, -⟩ := readallo_append hparts
  refine ⟨s₁, ?_, hs₁⟩
  rw [f.size_length] at hr₁
  have hh := f.headsize behind
  have hb := f.bodysize behind
  unfold ulPackReadoMs
  rw [hr₁]
  dsimp only
  rw [if_neg (by decide)]
  by_cases hstart : f.size.take bufStart.length = bufStart
  · have hneg : ¬ ((scanSizes (cstr (f.size ++ behind))).2.1 < 0 ∨
        (scanSizes (cstr (f.size ++ behind))).2.2 < 0) := by
      rw [Int32.lt_iff_toInt_lt, Int32.lt_iff_toInt_lt, hh, hb, Int32.toInt_zero]
      omega
    have hbig : p.bufsize < (scanSizes (cstr (f.size ++ behind))).2.2 ∨
        (maxHeadSize : ℤ) ≤ (scanSizes (cstr (f.size ++ behind))).2.1.toInt := by
      rw [Int32.lt_iff_toInt_lt, hh, hb]
      unfold Frame.Fits at h
      by_contra hc
      exact h ⟨hstart, by omega, by omega⟩
    rw [if_neg (not_or.mpr ⟨not_not_intro rfl, not_not_intro hstart⟩), if_neg hneg, if_pos hbig]
  · rw [if_pos (Or.inr hstart)]

/-! ## What the reader stores -/

/-- `ul_pack_reado_ms` from the head on, with what it stores in its fixed arrays and in the slots of
the package. -/
def readPartsT (junk : Mem UInt8) (s : Sock) (p : UlPackage) (tmp : Bytes)
    (headsize bodysize : Int32) : List Access × ReadResult :=
  let (size, headbuf, s) := ulPackReadalloMs s headsize.toNatClampNeg
  if size = -1 then ([], ⟨-2, p, s⟩)
  else if size ≠ headsize.toInt then ([], reject junk p s)
  else
    let first := [Access.store .headbuf (headbuf ++ [0])]
    let (size, body, s) := ulPackReadalloMs s bodysize.toNatClampNeg
    let p := p.store body
    if size = -1 then (first, ⟨-2, p, s⟩)
    else if size ≠ bodysize.toInt then (first, reject junk p s)
    else
      let (size, eofstr, s) := ulPackReadalloMs s bufEof.length
      let second := first ++ [.store .eofstr (eofstr ++ [0])]
      if size = -1 then (second, ⟨-2, p, s⟩)
      else if size ≠ (bufEof.length : ℤ) ∨ eofstr ≠ bufEof then (second, reject junk p s)
      else
        let r := parseLinesT (headLines (cstr headbuf)) ⟨p.name, p.value, 0, tmp⟩
        (second ++ r.1,
          match r.2 with
          | .error st => reject junk (p.setSlots st) s
          | .ok st => ⟨bodysize.toInt, { p.setSlots st with pairnum := st.i }, s⟩)

/-- `ul_pack_reado_ms` with what it stores in its fixed arrays and in the slots of the package. -/
def ulPackReadoMsT (behind : Bytes) (junk : Mem UInt8) (s : Sock) (p : UlPackage) :
    List Access × ReadResult :=
  let (size, sizebuf, s) := ulPackReadalloMs s sizeNum
  if size = -1 then ([], ⟨-2, p, s⟩)
  else if size ≠ (sizeNum : ℤ) ∨ sizebuf.take bufStart.length ≠ bufStart then ([], reject junk p s)
  else
    let (tmp, headsize, bodysize) := scanSizes (cstr (sizebuf ++ behind))
    let first := [Access.store .tmp (tmp ++ [0])]
    if headsize < 0 ∨ bodysize < 0 then (first, reject junk p s)
    else if p.bufsize < bodysize ∨ (maxHeadSize : ℤ) ≤ headsize.toInt then (first, reject junk p s)
    else
      let r := readPartsT junk s p tmp headsize bodysize
      (first ++ r.1, r.2)

/-- Recording what is stored does not change what is read from the head on. -/
theorem readPartsT_eq (junk : Mem UInt8) (s : Sock) (p : UlPackage) (tmp : Bytes)
    (headsize bodysize : Int32) :
    (readPartsT junk s p tmp headsize bodysize).2 = readParts junk s p tmp headsize bodysize := by
  unfold readPartsT readParts
  simp only [parseLinesT_eq, parseHead_eq]
  split_ifs <;> rfl

/-- **Recording what is stored does not change the result.** -/
theorem readoT_eq (behind : Bytes) (junk : Mem UInt8) (s : Sock) (p : UlPackage) :
    (ulPackReadoMsT behind junk s p).2 = ulPackReadoMs behind junk s p := by
  unfold ulPackReadoMsT ulPackReadoMs
  generalize ulPackReadalloMs s sizeNum = r
  obtain ⟨size, sizebuf, s⟩ := r
  dsimp only
  generalize scanSizes (cstr (sizebuf ++ behind)) = z
  obtain ⟨tmp, headsize, bodysize⟩ := z
  dsimp only
  split_ifs
  · rfl
  · rfl
  · rfl
  · rfl
  · exact readPartsT_eq junk s p tmp headsize bodysize

/-- What is stored from the head on, when all parts are there. -/
theorem readPartsT_parse (junk : Mem UInt8) {s : Sock} {p : UlPackage} {tmp : Bytes}
    {headsize bodysize : Int32} {head body rest : Bytes}
    (hs : s.stream = head ++ (body ++ (bufEof ++ rest))) (hh : headsize.toInt = head.length)
    (hb : bodysize.toInt = body.length) :
    (readPartsT junk s p tmp headsize bodysize).1 =
      [.store .headbuf (head ++ [0]), .store .eofstr (bufEof ++ [0])] ++
        (parseLinesT (headLines (cstr head)) ⟨p.name, p.value, 0, tmp⟩).1 := by
  obtain ⟨s₁, hr₁, hs₁, -⟩ := readallo_append hs
  obtain ⟨s₂, hr₂, hs₂, -⟩ := readallo_append hs₁
  obtain ⟨s₃, hr₃, -, -⟩ := readallo_append hs₂
  have hhnat : headsize.toNatClampNeg = head.length := by
    rw [← Int32.toNat_toInt, hh, Int.toNat_natCast]
  have hbnat : bodysize.toNatClampNeg = body.length := by
    rw [← Int32.toNat_toInt, hb, Int.toNat_natCast]
  have hpos : ∀ n : ℕ, (n : ℤ) ≠ -1 := by
    intro n
    omega
  have heof : ¬ ((bufEof.length : ℤ) ≠ (bufEof.length : ℤ) ∨ bufEof ≠ bufEof) := by simp
  unfold readPartsT
  rw [hhnat, hr₁, hh]
  dsimp only
  rw [if_neg (hpos _), if_neg (not_not_intro rfl), hbnat, hr₂, hb]
  dsimp only
  rw [if_neg (hpos _), if_neg (not_not_intro rfl), hr₃]
  dsimp only
  rw [if_neg (hpos _), if_neg heof, UlPackage.store_name, UlPackage.store_value]
  rfl

/-- **What is stored of a frame**: when the sizes are allowed, the parts of the frame and what the
head parser stores; else at most the first word of the size line. -/
theorem readoT_cases (behind : Bytes) (junk : Mem UInt8) {s : Sock} {p : UlPackage} {f : Frame}
    {rest : Bytes} (hs : s.stream = f.bytes ++ rest) :
    (f.Fits p.bufsize ∧ (ulPackReadoMsT behind junk s p).1 =
        [.store .tmp (startWord ++ [0]), .store .headbuf (f.head ++ [0]),
          .store .eofstr (bufEof ++ [0])] ++
          (parseLinesT (headLines (cstr f.head)) ⟨p.name, p.value, 0, startWord⟩).1) ∨
      (¬ f.Fits p.bufsize ∧ ∀ a ∈ (ulPackReadoMsT behind junk s p).1,
        a = .store .tmp (startWord ++ [0])) := by
  have hparts : s.stream = f.size ++ (f.head ++ (f.body ++ (bufEof ++ rest))) := by
    rw [hs, Frame.bytes]
    simp only [List.append_assoc]
  obtain ⟨s₁, hr₁, hs₁, -⟩ := readallo_append hparts
  rw [f.size_length] at hr₁
  have hh := f.headsize behind
  have hb := f.bodysize behind
  unfold ulPackReadoMsT
  rw [hr₁]
  dsimp only
  rw [if_neg (by decide)]
  by_cases hstart : f.size.take bufStart.length = bufStart
  swap
  · rw [if_pos (Or.inr hstart)]
    exact Or.inr ⟨fun h => hstart h.1, List.forall_mem_nil _⟩
  rw [if_neg (not_or.mpr ⟨not_not_intro rfl, not_not_intro hstart⟩), scanSizes_word hstart]
  have hneg : ¬ ((scanSizes (cstr (f.size ++ behind))).2.1 < 0 ∨
      (scanSizes (cstr (f.size ++ behind))).2.2 < 0) := by
    rw [Int32.lt_iff_toInt_lt, Int32.lt_iff_toInt_lt, hh, hb, Int32.toInt_zero]
    omega
  rw [if_neg hneg]
  by_cases hfit : f.Fits p.bufsize
  · have hlarge : ¬ (p.bufsize < (scanSizes (cstr (f.size ++ behind))).2.2 ∨
        (maxHeadSize : ℤ) ≤ (scanSizes (cstr (f.size ++ behind))).2.1.toInt) := by
      rw [Int32.lt_iff_toInt_lt, hh, hb]
      have := hfit.2.1
      have := hfit.2.2
      omega
    rw [if_neg hlarge, readPartsT_parse junk hs₁ hh hb]
    exact Or.inl ⟨hfit, rfl⟩
  · have hlarge : p.bufsize < (scanSizes (cstr (f.size ++ behind))).2.2 ∨
        (maxHeadSize : ℤ) ≤ (scanSizes (cstr (f.size ++ behind))).2.1.toInt := by
      rw [Int32.lt_iff_toInt_lt, hh, hb]
      by_contra hc
      exact hfit ⟨hstart, by omega, by omega⟩
    rw [if_pos hlarge]
    exact Or.inr ⟨hfit, fun a ha => List.mem_singleton.mp ha⟩

/-- **What one call stores fits** in the arrays iff the second words of the lines that are scanned
fit in `tmp`; a head that is not read is not scanned. -/
theorem stores_safe_iff (behind : Bytes) (junk : Mem UInt8) {s : Sock} {p : UlPackage} {f : Frame}
    {rest : Bytes} (hs : s.stream = f.bytes ++ rest) :
    (∀ a ∈ (ulPackReadoMsT behind junk s p).1, a.Safe p.bufsize) ↔
      (f.Fits p.bufsize → f.WordsFit) := by
  have hstart : (Access.store .tmp (startWord ++ [0])).Safe p.bufsize := by
    rw [Access.safe_store_iff]
    decide
  rcases readoT_cases behind junk hs with ⟨hfit, heq⟩ | ⟨hfit, hstores⟩
  · have hhead : (Access.store .headbuf (f.head ++ [0])).Safe p.bufsize := by
      rw [Access.safe_store_iff]
      exact hfit.2.1
    have heof : (Access.store .eofstr (bufEof ++ [0])).Safe p.bufsize := by
      rw [Access.safe_store_iff]
      decide
    rw [heq, List.forall_mem_append, parseLinesT_safe_iff, forall_prop_of_true hfit]
    simp only [List.forall_mem_cons, hstart, hhead, heof, true_and]
    exact and_iff_right (List.forall_mem_nil _)
  · refine iff_of_true (fun a ha => ?_) fun h => absurd h hfit
    rw [hstores a ha]
    exact hstart

/-! ## Runs of a reader -/

/-- A call of `ul_pack_reado_ms`: the package that receives, and what stands in memory behind the
array `sizebuf` and in the array of `ul_pack_readendo_ms`. -/
structure Call where
  pkg : UlPackage
  hasBuffer : pkg.HasBuffer
  behind : Bytes
  junk : Mem UInt8

/-- The call on a socket. -/
def Call.run (c : Call) (s : Sock) : ReadResult := ulPackReadoMs c.behind c.junk s c.pkg

/-- What the call stores stays inside its fixed arrays and the slots of the package. -/
def Call.Safe (c : Call) (s : Sock) : Prop :=
  ∀ a ∈ (ulPackReadoMsT c.behind c.junk s c.pkg).1, a.Safe c.pkg.bufsize

/-- **Resynchronisation** of the calls `cs` on a stream of the frames `fs`: a call stays inside its
arrays; when it rejects its frame it leaves the stream at the start of the next frame, and a frame
that fits and has a well-formed head is delivered; a call that returns `-2` is the last one. -/
def Resynchronises : List Call → List Frame → Sock → Prop
  | c :: cs, f :: fs, s =>
      c.Safe s ∧
        ((c.run s).ret = -1 → (c.run s).sock.stream = stream fs) ∧
        (f.Fits c.pkg.bufsize ∧ f.HeadOk →
          (c.run s).ret = f.body.length ∧ (c.run s).sock.stream = stream fs ∧
            ∃ st, parseHead (cstr f.head) (headStart c.behind f.size c.pkg) = .ok st ∧
              (c.run s).pkg = c.pkg.received f.body st) ∧
        ((c.run s).ret ≠ -2 → Resynchronises cs fs (c.run s).sock)
  | _, _, _ => True

/-- The calls `cs` skip the frames `fs` that they reject: a frame that does not fit contains no end
marker of its own, and a frame that fits has second words that fit in `tmp`, and has a well-formed
head or is the last one. -/
def Skips : List Call → List Frame → Prop
  | c :: cs, f :: fs =>
      (f.Fits c.pkg.bufsize → f.WordsFit) ∧
        (f.Fits c.pkg.bufsize → f.HeadOk ∨ fs = []) ∧ (¬ f.Fits c.pkg.bufsize → f.NoInnerEof) ∧
        Skips cs fs
  | _, _ => True

/-- The stream of a first frame and more frames. -/
theorem stream_cons (f : Frame) (fs : List Frame) : stream (f :: fs) = f.bytes ++ stream fs :=
  List.flatMap_cons

/-- A stream of at least one frame has an end marker, and what follows the first one is shorter
than the stream. -/
theorem afterEof_stream (f : Frame) (fs : List Frame) :
    ∃ r, afterEof (stream (f :: fs)) = some r ∧ r.length < (stream (f :: fs)).length := by
  cases h : afterEof (stream (f :: fs)) with
  | none =>
      rw [afterEof_eq_none_iff] at h
      refine absurd ⟨f.size ++ (f.head ++ f.body), stream fs, ?_⟩ h
      rw [stream_cons, Frame.bytes]
      simp only [List.append_assoc]
  | some r =>
      refine ⟨r, rfl, ?_⟩
      obtain ⟨k, -, rfl⟩ := Option.map_eq_some_iff.mp h
      rw [List.length_drop, stream_cons, Frame.bytes]
      simp only [List.length_append, List.length_cons]
      omega

/-- A call on a frame that fits and has a well-formed head. -/
theorem Call.run_of_ok (c : Call) {s : Sock} {f : Frame} {rest : Bytes}
    (hs : s.stream = f.bytes ++ rest) (hfit : f.Fits c.pkg.bufsize) (hok : f.HeadOk) :
    ∃ s' st, c.run s = ⟨f.body.length, c.pkg.received f.body st, s'⟩ ∧ s'.stream = rest ∧
      parseHead (cstr f.head) (headStart c.behind f.size c.pkg) = .ok st := by
  have hframed := hfit.framed c.behind rest
  rw [← hs] at hframed
  obtain ⟨st, hst⟩ : ∃ st, parseHead (cstr f.head) (headStart c.behind f.size c.pkg) = .ok st := by
    rw [parseHead_ok_iff, headStart, scanSizes_word hfit.1]
    exact hok
  obtain ⟨s', hr, hs', -⟩ := reado_of_framed c.junk hframed hst
  exact ⟨s', st, hr, hs', hst⟩

/-- A call on a frame that fits and has a malformed head: the whole frame has been read when it is
rejected. -/
theorem Call.run_of_malformed (c : Call) {s : Sock} {f : Frame} {rest : Bytes}
    (hs : s.stream = f.bytes ++ rest) (hfit : f.Fits c.pkg.bufsize) (hbad : ¬ f.HeadOk) :
    ∃ s' p, c.run s = reject c.junk p s' ∧ s'.stream = rest := by
  have hframed := hfit.framed c.behind rest
  rw [← hs] at hframed
  obtain ⟨s', hs', -, hr⟩ := reado_parse c.junk hframed
  obtain ⟨st, hst⟩ : ∃ st, parseHead (cstr f.head) (headStart c.behind f.size c.pkg) =
      .error st := by
    apply parseHead_error_of_not
    rw [headStart, scanSizes_word hfit.1]
    exact hbad
  rw [hst] at hr
  exact ⟨s', _, hr, hs'⟩

/-- A call on a frame that does not fit: it is rejected, and the stream is left at the start of the
next frame iff there is no other end marker. -/
theorem Call.run_of_not_fits (c : Call) {s : Sock} {f : Frame} {rest : Bytes}
    (hs : s.stream = f.bytes ++ rest) (hfit : ¬ f.Fits c.pkg.bufsize) :
    ∃ s', c.run s = reject c.junk c.pkg s' ∧
      ∃ r, afterEof s'.stream = some r ∧ (r = rest ↔ f.NoInnerEof) := by
  obtain ⟨s', hr, hs'⟩ := reado_of_not_fits c.behind c.junk hfit hs
  refine ⟨s', hr, ?_⟩
  have hiff := afterEof_append_eof (f.head ++ f.body) rest
  rw [hs']
  cases hafter : afterEof (f.head ++ f.body ++ (bufEof ++ rest)) with
  | none =>
      rw [afterEof_eq_none_iff] at hafter
      exact absurd ⟨f.head ++ f.body, rest, List.append_assoc _ _ _⟩ hafter
  | some r =>
      rw [hafter, Option.some_inj] at hiff
      exact ⟨r, rfl, hiff⟩

/-- **One call**: on a stream of frames it leaves the stream at the start of the next frame when it
rejects the first one, iff that one is skipped correctly. -/
theorem Call.run_iff (c : Call) {s : Sock} {f : Frame} {fs : List Frame}
    (hs : s.stream = stream (f :: fs)) :
    ((c.run s).ret = -1 → (c.run s).sock.stream = stream fs) ↔
      (f.Fits c.pkg.bufsize → f.HeadOk ∨ fs = []) ∧ (¬ f.Fits c.pkg.bufsize → f.NoInnerEof) := by
  rw [stream_cons] at hs
  by_cases hfit : f.Fits c.pkg.bufsize
  · by_cases hok : f.HeadOk
    · obtain ⟨s', st, hr, -, -⟩ := c.run_of_ok hs hfit hok
      rw [hr]
      refine iff_of_true ?_ ⟨fun _ => Or.inl hok, fun h => absurd hfit h⟩
      intro h
      exact absurd h (by simp only; omega)
    · -- the end marker that is skipped to is the one of the next frame
      obtain ⟨s', p, hr, hs'⟩ := c.run_of_malformed hs hfit hok
      rw [hr]
      cases fs with
      | nil =>
          refine iff_of_true ?_ ⟨fun _ => Or.inr rfl, fun h => absurd hfit h⟩
          intro h
          rw [reject_of_none c.junk p (by rw [hs']; rfl)] at h
          exact absurd h (by omega)
      | cons g gs =>
          obtain ⟨r, hafter, hlt⟩ := afterEof_stream g gs
          obtain ⟨hret, hrest⟩ := reject_of_some c.junk p (by rw [hs']; exact hafter)
          refine iff_of_false ?_ ?_
          · intro h
            have := h hret
            rw [hrest] at this
            rw [this] at hlt
            exact absurd hlt (lt_irrefl _)
          · rintro ⟨h, -⟩
            rcases h hfit with h | h
            · exact hok h
            · cases h
  · obtain ⟨s', hr, r, hafter, hiff⟩ := c.run_of_not_fits hs hfit
    obtain ⟨hret, hrest⟩ := reject_of_some c.junk c.pkg hafter
    rw [hr, hrest]
    constructor
    · intro h
      exact ⟨fun h' => absurd h' hfit, fun _ => hiff.mp (h hret)⟩
    · rintro ⟨-, h⟩ -
      exact hiff.mpr (h hfit)

/-- A call on a frame that does not fit or has a malformed head rejects it, or gives the connection
up behind the last frame. -/
theorem Call.ret_of_not_ok (c : Call) {s : Sock} {f : Frame} {fs : List Frame}
    (hs : s.stream = stream (f :: fs)) (h : ¬ (f.Fits c.pkg.bufsize ∧ f.HeadOk)) :
    (c.run s).ret = -1 ∨ ((c.run s).ret = -2 ∧ fs = []) := by
  rw [stream_cons] at hs
  by_cases hfit : f.Fits c.pkg.bufsize
  · obtain ⟨s', p, hr, hs'⟩ := c.run_of_malformed hs hfit fun hok => h ⟨hfit, hok⟩
    rw [hr]
    cases fs with
    | nil => exact Or.inr ⟨reject_of_none c.junk p (by rw [hs']; rfl), rfl⟩
    | cons g gs =>
        obtain ⟨r, hafter, -⟩ := afterEof_stream g gs
        exact Or.inl (reject_of_some c.junk p (by rw [hs']; exact hafter)).1
  · obtain ⟨s', hr, r, hafter, -⟩ := c.run_of_not_fits hs hfit
    rw [hr]
    exact Or.inl (reject_of_some c.junk c.pkg hafter).1

/-- **Resynchronisation of runs**: on a stream of frames, all calls of a run stay inside their arrays,
those that reject a package consume exactly its frame, and all packages that fit and have a
well-formed head are delivered, iff the frames are skipped correctly. -/
theorem resynchronises_iff (cs : List Call) (fs : List Frame) (s : Sock)
    (hs : s.stream = stream fs) : Resynchronises cs fs s ↔ Skips cs fs := by
  induction cs generalizing fs s with
  | nil => simp [Resynchronises, Skips]
  | cons c cs ih =>
      cases fs with
      | nil => simp [Resynchronises, Skips]
      | cons f fs =>
          have hsafe : c.Safe s ↔ (f.Fits c.pkg.bufsize → f.WordsFit) :=
            stores_safe_iff c.behind c.junk (hs.trans (stream_cons f fs))
          rw [Resynchronises, Skips, hsafe, c.run_iff hs, and_assoc]
          refine and_congr_right fun _ => ?_
          refine and_congr_right fun hok => and_congr_right fun hno => ?_
          have hrej := (c.run_iff hs).mpr ⟨hok, hno⟩
          by_cases hgood : f.Fits c.pkg.bufsize ∧ f.HeadOk
          · rw [stream_cons] at hs
            obtain ⟨s', st, hr, hs', hst⟩ := c.run_of_ok hs hgood.1 hgood.2
            rw [hr]
            constructor
            · rintro ⟨-, h⟩
              exact (ih fs s' hs').mp (h (by simp only; omega))
            · intro h
              exact ⟨fun _ => ⟨rfl, hs', st, hst, rfl⟩, fun _ => (ih fs s' hs').mpr h⟩
          · rcases c.ret_of_not_ok hs hgood with hret | ⟨hret, rfl⟩
            · rw [← ih fs _ (hrej hret)]
              constructor
              · rintro ⟨-, h⟩
                exact h (by omega)
              · intro h
                exact ⟨fun h' => absurd h' hgood, fun _ => h⟩
            · have hskips : Skips cs [] := by cases cs <;> trivial
              refine iff_of_true ⟨fun h' => absurd h' hgood, ?_⟩ hskips
              intro h
              exact absurd hret h

/-- A frame whose size line has its terminator. -/
def Frame.ofTerminated (size head body : Bytes) (hlen : size.length = sizeNum) (h0 : 0 ∈ size)
    (hh : (scanSizes (cstr size)).2.1.toInt = head.length)
    (hb : (scanSizes (cstr size)).2.2.toInt = body.length) : Frame :=
  ⟨size, head, body, hlen, fun behind => by rw [cstr_append_of_mem h0]; exact hh,
    fun behind => by rw [cstr_append_of_mem h0]; exact hb⟩

/-- A frame with a head without pairs and an empty body. -/
def plainFrame : Frame :=
  Frame.ofTerminated (sizeField (sizeText 2 0)) crlf [] (by decide +kernel) (by decide +kernel)
    (by decide +kernel) (by decide +kernel)

/-- A frame with a line without a separator in its head. -/
def malformedFrame : Frame :=
  Frame.ofTerminated (sizeField (sizeText 3 0)) (ascii "a" ++ crlf) [] (by decide +kernel)
    (by decide +kernel) (by decide +kernel) (by decide +kernel)

/-- A call with room for a body of 16 bytes. -/
def smallCall : Call :=
  ⟨emptyPackage, fun h => absurd h (Option.some_ne_none _), [], fun _ => 0⟩

/-- Two frames without pairs are delivered. -/
theorem resynchronises_iff_two :
    Resynchronises [smallCall, smallCall] [plainFrame, plainFrame]
        (Sock.ofBytes (stream [plainFrame, plainFrame])) ↔
      Skips [smallCall, smallCall] [plainFrame, plainFrame] :=
  resynchronises_iff _ _ _ (Sock.stream_ofBytes _)

/-- A frame with a malformed head is rejected together with the good frame behind it. -/
theorem reado_swallows_frame :
    plainFrame.Fits smallCall.pkg.bufsize ∧ plainFrame.HeadOk ∧
      (smallCall.run (Sock.ofBytes (stream [malformedFrame, plainFrame]))).ret = -1 ∧
      (smallCall.run (Sock.ofBytes (stream [malformedFrame, plainFrame]))).sock.stream = [] ∧
      ¬ Resynchronises [smallCall, smallCall] [malformedFrame, plainFrame]
        (Sock.ofBytes (stream [malformedFrame, plainFrame])) := by
  have hret : (smallCall.run (Sock.ofBytes (stream [malformedFrame, plainFrame]))).ret = -1 := by
    decide +kernel
  have hrest : (smallCall.run
      (Sock.ofBytes (stream [malformedFrame, plainFrame]))).sock.stream = [] := by
    decide +kernel
  refine ⟨?_, ?_, hret, hrest, ?_⟩
  · unfold Frame.Fits
    decide +kernel
  · unfold Frame.HeadOk
    decide +kernel
  · rintro ⟨-, h, -⟩
    have := h hret
    rw [hrest] at this
    exact absurd this (by decide +kernel)

end Asenal.Pack
