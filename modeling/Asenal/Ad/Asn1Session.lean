import Asenal.Ad.Asn1Values
import Asenal.Lib.Raised

/-!
# Encoding and decoding

What the encoder of `asn1.py` emits in any sequence of calls, the decoder reads in the same sequence.

* `readTag_emitTag`, `readLength_emitLength`, `readValue_encodeValue` — what is emitted for one value is read back.
* `emitted_of_calls` — the output of a sequence of calls is that of a forest.
* `follow_output` — the decoder follows the encoder.
-/

namespace Asenal.Ad

open Asenal.Lib.Text Asenal.Lib.Numbers Asenal.Lib.Nested Asenal.Lib.Raised

/-! ## Reading what was emitted -/

/-- An input that was read up to some place. -/
def Level.between (before rest : Bytes) : Level := ⟨before.length, before ++ rest⟩

variable {before bs rest value : Bytes} {b : UInt8} {nr n acc : ℕ} {typ : TagType} {cls : TagClass} {v : Value}
  {strings : List Bytes}

/-- What was read is in front of the index. -/
theorem advance_between : (Level.between before (bs ++ rest)).advance bs.length =
    Level.between (before ++ bs) rest := by
  simp [Level.between, Level.advance]

/-- What is left stands behind the index. -/
theorem drop_between : (Level.between before rest).input.drop (Level.between before rest).index = rest := by
  simp [Level.between]

/-- A byte is read that stands behind the index. -/
theorem readByte_between : readByte (Level.between before (b :: rest)) =
    .ok (b.toNat, Level.between (before ++ [b]) rest) := by
  have hget : (Level.between before (b :: rest)).input[(Level.between before (b :: rest)).index]? = some b := by
    simp [Level.between]
  rw [readByte, hget, ← advance_between]
  rfl

/-- Bytes are read that stand behind the index. -/
theorem readBytes_between : readBytes (Level.between before (bs ++ rest)) bs.length =
    .ok (bs, Level.between (before ++ bs) rest) := by
  simp only [readBytes, drop_between, List.take_left, if_true, advance_between]

/-- The input is at its end if nothing is left. -/
theorem endOfInput_between : endOfInput (Level.between before rest) = .ok (decide (rest = [])) := by
  cases rest <;> simp [endOfInput, Level.between]

/-- The tag number is read in groups. -/
theorem readTagLoop_between {more : Bytes} (h : readVarint acc bs = some (n, more)) :
    ∃ groups, bs = groups ++ more ∧
      readTagLoop (Level.between before bs) acc bs = .ok (n, Level.between (before ++ groups) more) := by
  induction bs generalizing acc before with
  | nil => simp [readVarint] at h
  | cons b bs ih =>
      have hb := b.toNat_lt
      have hadvance : (Level.between before (b :: bs)).advance 1 = Level.between (before ++ [b]) bs :=
        @advance_between before [b] bs
      rw [readVarint] at h
      rw [readTagLoop, and_7f, shiftLeft_seven_or _ (Nat.mod_lt _ (by decide)), hadvance]
      split_ifs at h with hlt
      · obtain ⟨rfl, rfl⟩ := Prod.mk.inj (Option.some.inj h)
        refine ⟨[b], rfl, ?_⟩
        simp only [(and_80 hb).mpr hlt, if_true, Nat.mod_eq_of_lt hlt]
      · have hmark : ¬ b.toNat &&& 0x80 = 0 := mt (and_80 hb).mp hlt
        obtain ⟨groups, rfl, hread⟩ := @ih (before ++ [b]) _ h
        refine ⟨b :: groups, rfl, ?_⟩
        simp only [hmark, if_false]
        rw [show b.toNat % 128 = b.toNat - 128 by omega, hread, List.append_assoc]
        rfl

/-- The byte in front of a tag. -/
theorem tag_byte (typ : TagType) (cls : TagClass) (h : nr < 32) :
    (UInt8.ofNat (nr ||| typ.code ||| cls.code)).toNat &&& 0x1f = nr ∧
      TagType.ofByte (UInt8.ofNat (nr ||| typ.code ||| cls.code)).toNat = typ ∧
      TagClass.ofByte (UInt8.ofNat (nr ||| typ.code ||| cls.code)).toNat = cls := by
  revert nr
  cases typ <;> cases cls <;> decide +kernel

/-- Bytes that are emitted one by one. -/
theorem flatten_singletons (vs : List ℕ) : (vs.map fun val => [UInt8.ofNat val]).flatten = vs.map UInt8.ofNat := by
  induction vs with
  | nil => rfl
  | cons v vs ih => rw [List.map_cons, List.flatten_cons, ih, List.map_cons, List.singleton_append]

/-- The bytes of a tag with a large number. -/
theorem flatten_emitTag_long (typ : TagType) (cls : TagClass) (h : ¬ nr < 31) :
    (emitTag nr typ cls).flatten = UInt8.ofNat (31 ||| typ.code ||| cls.code) :: varint nr := by
  have hcode : typ.code ||| cls.code ||| 0x1f = 31 ||| typ.code ||| cls.code := by
    rw [Nat.or_comm, Nat.or_assoc]
  have hgroups : (((nr &&& 0x7f) :: tagLoop (nr >>> 7)).reverse.map fun val => [UInt8.ofNat val]).flatten =
      varint nr := by
    rw [flatten_singletons, List.reverse_cons, List.map_append, shiftRight_seven, tagLoop_eq, and_7f]
    rfl
  rw [emitTag, if_neg h, emitTagLong, List.flatten_cons, hgroups, hcode]
  rfl

/-- A tag that was emitted is read. -/
theorem readTag_emitTag (nr : ℕ) (typ : TagType) (cls : TagClass) :
    readTag (Level.between before ((emitTag nr typ cls).flatten ++ rest)) =
      .ok (⟨nr, typ, cls⟩, Level.between (before ++ (emitTag nr typ cls).flatten) rest) := by
  by_cases h : nr < 31
  · obtain ⟨hnr, htyp, hcls⟩ := tag_byte typ cls (show nr < 32 by omega)
    rw [emitTag, if_pos h, emitTagShort, List.flatten_singleton, List.singleton_append]
    simp only [readTag, readByte_between, ok_bind, hnr, htyp, hcls]
    rw [if_neg (by omega)]
    rfl
  · obtain ⟨hnr, htyp, hcls⟩ := tag_byte typ cls (show 31 < 32 by omega)
    obtain ⟨groups, hgroups, hread⟩ := @readTagLoop_between
      (before ++ [UInt8.ofNat (31 ||| typ.code ||| cls.code)]) _ _ _ _ (readVarint_varint nr rest)
    obtain rfl : varint nr = groups := List.append_cancel_right hgroups
    rw [flatten_emitTag_long typ cls h, List.cons_append]
    simp only [readTag, readByte_between, ok_bind, hnr, htyp, hcls, if_true, drop_between, hread]
    rw [List.append_assoc]
    rfl

/-- The loop of a length gives its bytes. -/
theorem lengthLoop_eq (n : ℕ) : (lengthLoop n).reverse.map UInt8.ofNat = leading n := by
  induction n using Nat.strongRecOn with
  | ind n ih =>
      by_cases hn : n = 0
      · rw [hn, lengthLoop, if_pos rfl, leading, if_pos rfl]
        rfl
      · rw [lengthLoop, if_neg hn, leading, if_neg hn, List.reverse_cons, List.map_append, shiftRight_eight,
          ih _ (by omega), and_ff]
        rfl

/-- How many bytes a length has. -/
theorem length_lengthLoop (n : ℕ) : (lengthLoop n).length = (leading n).length := by
  rw [← lengthLoop_eq, List.length_map, List.length_reverse]

/-- What is emitted for a length. -/
theorem emitLength_eq_ok (h : emitLength n = .ok strings) :
    n < 128 ∧ strings.flatten = [UInt8.ofNat n] ∨ 128 ≤ n ∧ (leading n).length < 127 ∧
      strings.flatten = UInt8.ofNat ((leading n).length + 128) :: leading n := by
  unfold emitLength at h
  simp only [length_lengthLoop] at h
  split_ifs at h with hshort hfit
  · obtain rfl := Except.ok.inj h
    exact .inl ⟨hshort, rfl⟩
  · obtain rfl := Except.ok.inj h
    refine .inr ⟨by omega, hfit, ?_⟩
    rw [List.flatten_cons, flatten_singletons, lengthLoop_eq, Nat.or_comm, or_80 (by omega)]
    rfl

/-- A length that was emitted is read. -/
theorem readLength_emitLength (h : emitLength n = .ok strings) :
    readLength (Level.between before (strings.flatten ++ rest)) =
      .ok (n, Level.between (before ++ strings.flatten) rest) := by
  rcases emitLength_eq_ok h with ⟨hn, hstrings⟩ | ⟨hn, hfit, hstrings⟩
  · have hbyte : (UInt8.ofNat n).toNat = n := by
      rw [UInt8.toNat_ofNat']
      omega
    have hmark : n &&& 0x80 = 0 := (and_80 (by omega)).mpr hn
    rw [hstrings, List.singleton_append]
    simp only [readLength, readByte_between, ok_bind, hbyte, hmark, ne_eq, not_true_eq_false, if_false]
    rfl
  · have hbyte : (UInt8.ofNat ((leading n).length + 128)).toNat = (leading n).length + 128 := by
      rw [UInt8.toNat_ofNat']
      omega
    have hmark : ¬((leading n).length + 128) &&& 0x80 = 0 := by
      rw [and_80 (by omega)]
      omega
    have hcount : ((leading n).length + 128) &&& 0x7f = (leading n).length := by
      rw [and_7f]
      omega
    rw [hstrings, List.cons_append]
    simp only [readLength, readByte_between, ok_bind, hbyte, hmark, hcount, ne_eq, not_false_eq_true, if_true]
    rw [if_neg (by omega), readBytes_between, ok_bind, foldl_shiftLeft, number_leading, List.append_assoc]
    rfl

/-- What is read where a value was written under a tag number. -/
def readBack (nr : ℕ) (value : Value) : Value :=
  if nr = Boolean then .bool value.truth
  else if nr = Integer ∨ nr = Enumerated then
    match value with
    | .int v => .int (readBackInt v)
    | .bool b => .int b.toInt
    | v => v
  else if nr = Null then .none
  else if nr = ObjectIdentifier then
    match value with
    | .str s => .str (dotted (components s))
    | v => v
  else value

/-- A number that is not negative is read back as it is. -/
theorem readBackInt_of_nonneg {v : ℤ} (h : 0 ≤ v) : readBackInt v = v := by
  have hpow : 0 < (256 : ℤ) ^ extra v := pow_pos (by decide) _
  rw [readBackInt, if_neg (by omega)]

/-- A boolean is read back. -/
theorem decodeBoolean_truth (b : Bool) : decodeBoolean [if b then 0xff else 0x00] = .ok b := by
  cases b <;> rfl

/-- **A value is read back** from its bytes. -/
theorem readValue_encodeValue (h : encodeValue nr v = .ok value) :
    readValue (Level.between before (value ++ rest)) nr value.length =
      .ok (readBack nr v, Level.between (before ++ value) rest) := by
  simp only [readValue, readBytes_between, ok_bind]
  unfold encodeValue at h
  unfold readBack
  by_cases hint : nr = Integer ∨ nr = Enumerated
  · have hbool : nr ≠ Boolean := by
      rcases hint with rfl | rfl <;> decide
    simp only [hint, hbool, if_true, if_false] at h ⊢
    cases v with
    | int v =>
        obtain ⟨bs, henc, hdec⟩ := decodeInteger_encodeInteger v
        obtain rfl : bs = value := Except.ok.inj (henc.symm.trans h)
        rw [hdec]
        rfl
    | bool b =>
        obtain ⟨bs, henc, hdec⟩ := decodeInteger_encodeInteger b.toInt
        obtain rfl : bs = value := Except.ok.inj (henc.symm.trans h)
        rw [hdec, readBackInt_of_nonneg (by cases b <;> decide)]
        rfl
    | str s => simp at h
    | none => simp at h
  rw [if_neg hint] at h
  by_cases hbool : nr = Boolean
  · rw [if_pos hbool] at h ⊢
    rw [if_pos hbool, ← Except.ok.inj h, decodeBoolean_truth]
    rfl
  rw [if_neg hbool] at h ⊢
  rw [if_neg hbool, if_neg hint, if_neg hint]
  by_cases hnull : nr = Null
  · have hoctet : nr ≠ OctetString := by
      rw [hnull]
      decide
    rw [if_pos hnull] at h
    obtain rfl := Except.ok.inj h
    rw [if_neg hoctet, if_pos hnull, if_pos hnull]
    rfl
  rw [if_neg hnull] at h
  rw [if_neg hnull, if_neg hnull]
  cases v with
  | str s =>
      simp only at h ⊢
      by_cases hoid : nr = ObjectIdentifier
      · have hoctet : nr ≠ OctetString := by
          rw [hoid]
          decide
        rw [if_pos hoid] at h ⊢
        rw [if_neg hoctet, if_pos hoid, decode_encodeObjectIdentifier h]
        rfl
      · rw [if_neg hoid] at h ⊢
        rw [if_neg hoid, Except.ok.inj h, ite_self]
        rfl
  | int v => simp at h
  | bool b => simp at h
  | none => simp at h

/-! ## The encoder -/

/-- The arguments of `write`. -/
structure Write where
  value : Value
  nr : Option ℕ
  typ : Option TagType
  cls : Option TagClass
deriving DecidableEq

/-- The tag that is written. -/
def Write.tag (w : Write) : Tag := ⟨w.nr.getD w.value.defaultNr, w.typ.getD .primitive, w.cls.getD .universal⟩

/-- The tag of a constructed value. -/
def constructed (o : ℕ × Option TagClass) : Tag := ⟨o.1, .constructed, o.2.getD .universal⟩

/-- The bytes of a tag. -/
def Tag.bytes (tag : Tag) : Bytes := (emitTag tag.nr tag.typ tag.cls).flatten

/-- A call of the encoder. -/
abbrev EncoderCall := Call (ℕ × Option TagClass) Write

/-- One call of the encoder. -/
def Encoder.call (e : Encoder) : EncoderCall → Except PyError Encoder
  | .enter o => e.enter o.1 o.2
  | .leave => e.leave
  | .leaf w => e.write w.value w.nr w.typ w.cls

/-- `start()`, some calls, and `output()`. -/
def encode (calls : List EncoderCall) : Except PyError Bytes := do
  let e ← calls.foldlM Encoder.call Encoder.start
  e.output

/-- The bytes of a forest of values. -/
inductive Emitted : Forest (ℕ × Option TagClass) Write → Bytes → Prop
  | nil : Emitted .nil []
  | leaf {w next value length rest} (hvalue : encodeValue w.tag.nr w.value = .ok value)
      (hlength : emitLength value.length = .ok length) (hrest : Emitted next rest) :
      Emitted (.leaf w next) (w.tag.bytes ++ (length.flatten ++ (value ++ rest)))
  | node {o children next value length rest} (hvalue : Emitted children value)
      (hlength : emitLength value.length = .ok length) (hrest : Emitted next rest) :
      Emitted (.node o children next) ((constructed o).bytes ++ (length.flatten ++ (value ++ rest)))

variable {top : List Bytes} {outer : List (List Bytes)} {e e' : Encoder}

/-- `enter` opens a value. -/
theorem enter_eq (o : ℕ × Option TagClass) : Encoder.call ⟨some ⟨top, outer⟩⟩ (.enter o) =
    .ok ⟨some ⟨[], (top ++ emitTag o.1 .constructed (o.2.getD .universal)) :: outer⟩⟩ := rfl

/-- `leave` closes a value. -/
theorem leave_eq_ok {t : List Bytes} : Encoder.call ⟨some ⟨top, t :: outer⟩⟩ .leave = .ok e ↔
    ∃ length, emitLength top.flatten.length = .ok length ∧ e = ⟨some ⟨t ++ (length ++ [top.flatten]), outer⟩⟩ := by
  rw [Encoder.call, Encoder.leave, Encoder.stack]
  simp only [ok_bind, bind_eq_ok, pure_eq, Except.ok.injEq, emit]
  exact exists_congr fun length => and_congr_right fun _ => eq_comm

/-- `write` emits a value. -/
theorem write_eq_ok {w : Write} : Encoder.call ⟨some ⟨top, outer⟩⟩ (.leaf w) = .ok e ↔
    ∃ value, encodeValue w.tag.nr w.value = .ok value ∧ ∃ length, emitLength value.length = .ok length ∧
      e = ⟨some ⟨top ++ emitTag w.tag.nr w.tag.typ w.tag.cls ++ (length ++ [value]), outer⟩⟩ := by
  rw [Encoder.call, Encoder.write, Encoder.stack]
  simp only [ok_bind, bind_eq_ok, pure_eq, Except.ok.injEq, emit]
  refine exists_congr fun value => and_congr_right fun _ => exists_congr fun length => and_congr_right fun _ => ?_
  exact eq_comm

/-- The calls of a forest emit its bytes, and leave alone what is not finished. -/
theorem emitted_of_calls (f : Forest (ℕ × Option TagClass) Write)
    (h : f.calls.foldlM Encoder.call ⟨some ⟨top, outer⟩⟩ = .ok e) :
    ∃ strings, e = ⟨some ⟨top ++ strings, outer⟩⟩ ∧ Emitted f strings.flatten := by
  induction f generalizing top outer e with
  | nil =>
      obtain rfl := Except.ok.inj h
      exact ⟨[], by rw [List.append_nil], .nil⟩
  | leaf w next ih =>
      rw [Forest.calls, foldlM_cons_eq_ok] at h
      obtain ⟨s, hs, h⟩ := h
      obtain ⟨value, hvalue, length, hlength, rfl⟩ := write_eq_ok.mp hs
      obtain ⟨strings, rfl, hrest⟩ := ih h
      refine ⟨emitTag w.tag.nr w.tag.typ w.tag.cls ++ (length ++ [value]) ++ strings, ?_, ?_⟩
      · simp only [List.append_assoc]
      · simpa [Tag.bytes] using Emitted.leaf hvalue hlength hrest
  | node o children next ihc ih =>
      rw [Forest.calls, foldlM_cons_eq_ok] at h
      obtain ⟨s, hs, h⟩ := h
      rw [enter_eq] at hs
      obtain rfl := Except.ok.inj hs
      rw [foldlM_append_eq_ok] at h
      obtain ⟨r, hr, h⟩ := h
      obtain ⟨value, rfl, hvalue⟩ := ihc hr
      rw [foldlM_cons_eq_ok] at h
      obtain ⟨t, ht, h⟩ := h
      obtain ⟨length, hlength, rfl⟩ := leave_eq_ok.mp ht
      obtain ⟨strings, rfl, hrest⟩ := ih h
      rw [List.nil_append] at hlength
      refine ⟨emitTag o.1 .constructed (o.2.getD .universal) ++ (length ++ [value.flatten]) ++ strings, ?_, ?_⟩
      · simp only [List.append_assoc, List.nil_append]
      · simpa [Tag.bytes, constructed] using Emitted.node (o := o) hvalue hlength hrest

/-- How much is open is what the encoder has not finished. -/
theorem depth_of_calls {calls : List EncoderCall} {t : List Bytes}
    (h : calls.foldlM Encoder.call ⟨some ⟨top, outer⟩⟩ = .ok ⟨some ⟨t, []⟩⟩) : depth outer.length calls = some 0 := by
  induction calls generalizing top outer with
  | nil =>
      obtain ⟨rfl, rfl⟩ : top = t ∧ outer = [] := by simpa using Except.ok.inj h
      rfl
  | cons c calls ih =>
      rw [foldlM_cons_eq_ok] at h
      obtain ⟨s, hs, h⟩ := h
      cases c with
      | enter o =>
          rw [enter_eq] at hs
          obtain rfl := Except.ok.inj hs
          exact ih h
      | leave =>
          cases outer with
          | nil => exact absurd hs nofun
          | cons u outer =>
              obtain ⟨length, -, rfl⟩ := leave_eq_ok.mp hs
              exact ih h
      | leaf w =>
          obtain ⟨value, -, length, -, rfl⟩ := write_eq_ok.mp hs
          cases outer <;> exact ih h

/-- **The output** of any calls is that of a forest. -/
theorem exists_emitted {calls : List EncoderCall} (h : encode calls = .ok bs) :
    ∃ f : Forest (ℕ × Option TagClass) Write, f.calls = calls ∧ Emitted f bs := by
  rw [encode, bind_eq_ok] at h
  obtain ⟨⟨stack⟩, hcalls, hout⟩ := h
  cases stack with
  | none => exact absurd hout nofun
  | some stack =>
      obtain ⟨top, outer⟩ := stack
      cases outer with
      | cons t outer => exact absurd hout nofun
      | nil =>
          obtain rfl : top.flatten = bs := Except.ok.inj hout
          obtain ⟨f, rfl⟩ := exists_forest (depth_of_calls hcalls)
          obtain ⟨strings, heq, hbytes⟩ := emitted_of_calls f hcalls
          obtain rfl : top = strings := by simpa using heq
          exact ⟨f, rfl, hbytes⟩

/-! ## The decoder -/

/-- What the decoder finds where the encoder made a call: the tag of what is entered, whether all was read of what
is left, and the tag and value that are read. -/
inductive Found
  | entered (tag : Option Tag)
  | left (eof : Bool)
  | read (result : Option (Tag × Value))
deriving DecidableEq

/-- The call of the decoder for a call of the encoder. -/
def Decoder.follow (d : Decoder) : EncoderCall → Except PyError (Found × Decoder)
  | .enter _ => do
      let (tag, d) ← d.peek
      let d ← d.enter
      return (.entered tag, d)
  | .leave => do
      let eof ← d.eof
      let d ← d.leave
      return (.left eof, d)
  | .leaf _ => do
      let (result, d) ← d.read
      return (.read result, d)

/-- One call after the other. -/
def Decoder.followAll (d : Decoder) : List EncoderCall → Except PyError (List Found × Decoder)
  | [] => .ok ([], d)
  | c :: cs => do
      let (found, d) ← d.follow c
      let (rest, d) ← d.followAll cs
      return (found :: rest, d)

/-- What there is to be found. -/
def found : EncoderCall → Found
  | .enter o => .entered (some (constructed o))
  | .leave => .left true
  | .leaf w => .read (some (w.tag, readBack w.tag.nr w.value))

/-- A decoder whose input was read up to some place. -/
def Decoder.between (before rest : Bytes) (outer : List Level) : Decoder :=
  ⟨some ⟨Level.between before rest, outer⟩, none⟩

variable {levels : List Level} {d d' d'' : Decoder} {cs cs' : List EncoderCall} {fs fs' : List Found}

/-- Calls one after the other are followed one after the other. -/
theorem followAll_append (h : d.followAll cs = .ok (fs, d')) (h' : d'.followAll cs' = .ok (fs', d'')) :
    d.followAll (cs ++ cs') = .ok (fs ++ fs', d'') := by
  induction cs generalizing d fs with
  | nil =>
      obtain ⟨rfl, rfl⟩ := Prod.mk.inj (Except.ok.inj h)
      exact h'
  | cons c cs ih =>
      rw [Decoder.followAll, bind_eq_ok] at h
      obtain ⟨⟨f, s⟩, hs, h⟩ := h
      rw [bind_eq_ok] at h
      obtain ⟨⟨gs, t⟩, ht, h⟩ := h
      obtain ⟨rfl, rfl⟩ := Prod.mk.inj (Except.ok.inj h)
      simp only [List.cons_append, Decoder.followAll, hs, ok_bind, ih ht]
      rfl

/-- A tag has bytes. -/
theorem bytes_ne_nil (tag : Tag) : tag.bytes ≠ [] := by
  unfold Tag.bytes emitTag emitTagShort emitTagLong
  split_ifs <;> simp

/-- A tag is seen that stands behind the index. -/
theorem peek_between (tag : Tag) : (Decoder.between before (tag.bytes ++ rest) levels).peek =
    .ok (some tag, ⟨some ⟨Level.between (before ++ tag.bytes) rest, levels⟩, some tag⟩) := by
  have hne : tag.bytes ++ rest ≠ [] := by simp [bytes_ne_nil]
  have hread := @readTag_emitTag before rest tag.nr tag.typ tag.cls
  simp only [Decoder.peek, Decoder.stack, Decoder.between, endOfInput_between, ok_bind, hne, decide_false,
    Bool.false_eq_true, if_false]
  rw [Tag.bytes, hread]
  rfl

/-- A value is read that stands behind the index. -/
theorem read_between (w : Write) {length : List Bytes} (hvalue : encodeValue w.tag.nr w.value = .ok value)
    (hlength : emitLength value.length = .ok length) :
    (Decoder.between before (w.tag.bytes ++ (length.flatten ++ (value ++ rest))) levels).read =
      .ok (some (w.tag, readBack w.tag.nr w.value),
        Decoder.between (before ++ (w.tag.bytes ++ (length.flatten ++ value))) rest levels) := by
  have hne : w.tag.bytes ++ (length.flatten ++ (value ++ rest)) ≠ [] := by simp [bytes_ne_nil]
  have hpeek := @peek_between before (length.flatten ++ (value ++ rest)) levels w.tag
  rw [Decoder.read, hpeek]
  simp only [Decoder.stack, Decoder.between, endOfInput_between, ok_bind, hne, decide_false, Bool.false_eq_true,
    if_false, readLength_emitLength hlength, readValue_encodeValue hvalue, List.append_assoc]
  rfl

/-- A length has bytes. -/
theorem flatten_emitLength_ne_nil {length : List Bytes} (h : emitLength n = .ok length) : length.flatten ≠ [] := by
  rcases emitLength_eq_ok h with ⟨-, heq⟩ | ⟨-, -, heq⟩
  · simp [heq]
  · simp [heq]

/-- After a tag that was read ahead, its value is entered. -/
theorem enter_between (o : ℕ × Option TagClass) {length : List Bytes} (hlength : emitLength value.length = .ok length) :
    (⟨some ⟨Level.between before (length.flatten ++ (value ++ rest)), levels⟩, some (constructed o)⟩ : Decoder).enter =
      .ok (Decoder.between [] value (Level.between (before ++ (length.flatten ++ value)) rest :: levels)) := by
  have hne : length.flatten ++ (value ++ rest) ≠ [] := by simp [flatten_emitLength_ne_nil hlength]
  simp only [Decoder.enter, Decoder.peek, Decoder.stack, endOfInput_between, ok_bind, hne, decide_false,
    Bool.false_eq_true, if_false, pure_eq, constructed, ne_eq, not_true_eq_false, readLength_emitLength hlength,
    readBytes_between, List.append_assoc]
  rfl

/-- **The decoder follows** the calls of a forest through its bytes. -/
theorem followAll_emitted {f : Forest (ℕ × Option TagClass) Write} (h : Emitted f bs) :
    (Decoder.between before (bs ++ rest) levels).followAll f.calls =
      .ok (f.calls.map found, Decoder.between (before ++ bs) rest levels) := by
  induction h generalizing before rest levels with
  | nil => simp [Forest.calls, Decoder.followAll]
  | leaf hvalue hlength hrest ih =>
      rename_i w next value length more
      have hread := @read_between before (more ++ rest) _ levels w _ hvalue hlength
      have hnext := @ih (before ++ (w.tag.bytes ++ (length.flatten ++ value))) rest levels
      simp only [List.append_assoc] at hread hnext ⊢
      simp only [Forest.calls, Decoder.followAll, Decoder.follow, hread, ok_bind, pure_eq, hnext]
      rfl
  | node hvalue hlength hrest ihc ih =>
      rename_i o children next value length more
      have hpeek := @peek_between before (length.flatten ++ (value ++ (more ++ rest))) levels (constructed o)
      have henter := @enter_between (before ++ (constructed o).bytes) (more ++ rest) _ levels o _ hlength
      have hchildren := @ihc [] [] (Level.between
        (before ++ (constructed o).bytes ++ (length.flatten ++ value)) (more ++ rest) :: levels)
      have hnext := @ih (before ++ (constructed o).bytes ++ (length.flatten ++ value)) rest levels
      have hleave : (Decoder.between value [] (Level.between
          (before ++ (constructed o).bytes ++ (length.flatten ++ value)) (more ++ rest) :: levels)).followAll
            (.leave :: next.calls) = .ok (.left true :: next.calls.map found, Decoder.between
              (before ++ (constructed o).bytes ++ (length.flatten ++ value) ++ more) rest levels) := by
        have heof : (Decoder.between value [] (Level.between
            (before ++ (constructed o).bytes ++ (length.flatten ++ value)) (more ++ rest) :: levels)).eof =
              .ok true := endOfInput_between
        have hout : (Decoder.between value [] (Level.between
            (before ++ (constructed o).bytes ++ (length.flatten ++ value)) (more ++ rest) :: levels)).leave =
              .ok (Decoder.between (before ++ (constructed o).bytes ++ (length.flatten ++ value)) (more ++ rest)
                levels) := rfl
        simp only [Decoder.followAll, Decoder.follow, heof, hout, ok_bind, pure_eq, hnext]
      rw [List.append_nil, List.nil_append] at hchildren
      have hboth := followAll_append hchildren hleave
      simp only [List.append_assoc] at hpeek henter hboth ⊢
      simp only [Forest.calls, Decoder.followAll, Decoder.follow, hpeek, henter, ok_bind, pure_eq, hboth,
        List.map_cons, List.map_append]
      rfl

/-- **The decoder follows the encoder**: through the output of any calls, in which it finds what was written. -/
theorem follow_output {calls : List EncoderCall} (h : encode calls = .ok bs) :
    ∃ d, (Decoder.start bs).followAll calls = .ok (calls.map found, d) ∧ d.eof = .ok true := by
  obtain ⟨f, rfl, hbytes⟩ := exists_emitted h
  have hall := @followAll_emitted [] _ [] [] _ hbytes
  rw [List.append_nil, List.nil_append] at hall
  exact ⟨_, hall, endOfInput_between⟩

/-- A sequence with one string. -/
theorem follow_output_sequence : ∃ d, (Decoder.start [48, 3, 4, 1, 97]).followAll
    [.enter (Sequence, none), .leaf ⟨.str [97], none, none, none⟩, .leave] =
      .ok ([.entered (some ⟨16, .constructed, .universal⟩), .read (some (⟨4, .primitive, .universal⟩, .str [97])),
        .left true], d) ∧ d.eof = .ok true :=
  follow_output (by decide +kernel)

end Asenal.Ad
