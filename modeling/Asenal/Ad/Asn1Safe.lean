import Asenal.Ad.Asn1Values
import Asenal.Lib.Machine
import Asenal.Lib.Stateful

/-!
# Runs of the decoder

The decoder of `asn1.py` on any input, with any calls in any order, those included that raise: a decoder goes on from
the state in which a call left it.

* `forget_call` — the calls are those of `Decoder`, where they return.
* `reached_safe` — it never reads behind an input, and none of its assertions fails.
* `leave_eq` — behind a constructed value it goes on in the same way, whatever was read of it.
-/

namespace Asenal.Ad

open Asenal.Lib.Text Asenal.Lib.Numbers Asenal.Lib.Raised Asenal.Lib.Stateful Asenal.Lib.Machine

/-! ## Calls that leave their state -/

/-- `_read_byte`, which raises before it goes on. -/
def readByteKept : Kept PyError Level ℕ := atomic readByte

/-- `_read_bytes`, which raises before it goes on. -/
def readBytesKept (count : ℕ) : Kept PyError Level Bytes := atomic fun l => readBytes l count

/-- `_end_of_input`. -/
def endOfInputKept : Kept PyError Level Bool := atomic fun l => (endOfInput l).map fun b => (b, l)

/-- The loop of `_read_tag`, with rounds enough for the input. -/
def readTagRounds : ℕ → ℕ → Kept PyError Level ℕ
  | 0, _ => throw prematureEnd
  | rounds + 1, nr => do
      let byte ← readByteKept
      let nr := (nr <<< 7) ||| (byte &&& 0x7f)
      if byte &&& 0x80 = 0 then return nr else readTagRounds rounds nr

/-- `_read_tag`. -/
def readTagKept : Kept PyError Level Tag := do
  let byte ← readByteKept
  let cls := TagClass.ofByte byte
  let typ := TagType.ofByte byte
  let nr := byte &&& 0x1f
  if nr = 0x1f then
    let nr ← readTagRounds ((← get).input.length + 1) 0
    return ⟨nr, typ, cls⟩
  else return ⟨nr, typ, cls⟩

/-- `_read_length`. -/
def readLengthKept : Kept PyError Level ℕ := do
  let byte ← readByteKept
  if byte &&& 0x80 ≠ 0 then
    let count := byte &&& 0x7f
    if count = 0x7f then throw syntaxError
    else
      let bytes ← readBytesKept count
      return bytes.foldl (fun length byte => (length <<< 8) ||| byte.toNat) 0
  else return byte

/-- `_read_value`. -/
def readValueKept (nr length : ℕ) : Kept PyError Level Value := do
  let bytes ← readBytesKept length
  if nr = Boolean then return .bool (← pureOf (decodeBoolean bytes))
  else if nr = Integer ∨ nr = Enumerated then return .int (← pureOf (decodeInteger bytes))
  else if nr = OctetString then return .str bytes
  else if nr = Null then
    pureOf (decodeNull bytes)
    return .none
  else if nr = ObjectIdentifier then return .str (← pureOf (decodeObjectIdentifier bytes))
  else return .str bytes

/-- What is done with the input on top. -/
def onTop {α : Type} (m : Kept PyError Level α) : Kept PyError Decoder α :=
  ExceptT.mk fun d =>
    match d.m_stack with
    | none => (.error noInput, d)
    | some stack => ((m.on stack.top).1, { d with m_stack := some { stack with top := (m.on stack.top).2 } })

/-- `peek()`. -/
def Decoder.peekKept : Kept PyError Decoder (Option Tag) := do
  if ← onTop endOfInputKept then return none
  else
    match (← get).m_tag with
    | some tag => return some tag
    | none =>
        let tag ← onTop readTagKept
        modify fun d => { d with m_tag := some tag }
        return some tag

/-- `read()`. -/
def Decoder.readKept : Kept PyError Decoder (Option (Tag × Value)) := do
  if ← onTop endOfInputKept then return none
  else
    let tag ← Decoder.peekKept
    let length ← onTop readLengthKept
    match tag with
    | none => throw .typeError
    | some tag =>
        let value ← onTop (readValueKept tag.nr length)
        modify fun d => { d with m_tag := none }
        return some (tag, value)

/-- `enter()`, up to where the value is entered. -/
def Decoder.enterBytes : Kept PyError Decoder Bytes := do
  match ← Decoder.peekKept with
  | none => throw .typeError
  | some tag =>
      if tag.typ ≠ .constructed then throw notConstructed
      else
        let length ← onTop readLengthKept
        onTop (readBytesKept length)

/-- Some bytes are the input on top. -/
def Decoder.push (d : Decoder) (bytes : Bytes) : Decoder :=
  ⟨d.m_stack.map fun stack => ⟨⟨0, bytes⟩, stack.top :: stack.outer⟩, none⟩

/-- `enter()`. -/
def Decoder.enterKept : Kept PyError Decoder Unit := do
  let bytes ← Decoder.enterBytes
  modify fun d => d.push bytes

/-- The calls of a decoder that was started. -/
inductive DecoderCall
  | peek
  | read
  | eof
  | enter
  | leave
deriving DecidableEq

/-- What a call does; its result does not matter here. -/
def DecoderCall.kept : DecoderCall → Kept PyError Decoder Unit
  | .peek => do let _ ← Decoder.peekKept
  | .read => do let _ ← Decoder.readKept
  | .eof => atomic fun d => d.eof.map fun _ => ((), d)
  | .enter => Decoder.enterKept
  | .leave => atomic fun d => d.leave.map fun d' => ((), d')

/-- What comes of a call, and the decoder that it leaves. -/
def Decoder.call (d : Decoder) (c : DecoderCall) : Except PyError Unit × Decoder := c.kept.on d

/-- The states that a decoder of some data gets to, also by calls that raise. -/
def Decoder.Reached (data : Bytes) : Decoder → Prop :=
  Lib.Machine.Reached (· = Decoder.start data) (fun d c => some (d.call c).2) fun _ _ => True

/-! ## The calls, as far as they return -/

variable {l : Level} {α : Type} {nr n rounds : ℕ} {d d' d₁ d₂ : Decoder} {data : Bytes}

/-- A byte is read as before. -/
theorem forget_readByte (l : Level) : forget (readByteKept.on l) = readByte l := forget_atomic _ l

/-- Bytes are read as before. -/
theorem forget_readBytes (l : Level) (n : ℕ) : forget ((readBytesKept n).on l) = readBytes l n := forget_atomic _ l

/-- The end is found as before. -/
theorem forget_endOfInput (l : Level) :
    forget (endOfInputKept.on l) = (endOfInput l).map fun b => (b, l) := forget_atomic _ l

/-- With a round for each byte that is left, the loop over a tag is the one without rounds. -/
theorem forget_readTagRounds (h : l.input.length ≤ l.index + rounds) (nr : ℕ) :
    forget ((readTagRounds rounds nr).on l) = readTagLoop l nr (l.input.drop l.index) := by
  induction rounds generalizing l nr with
  | zero =>
      rw [List.drop_eq_nil_of_le (show l.input.length ≤ l.index from h)]
      rfl
  | succ rounds ih =>
      rw [readTagRounds, forget_bind, forget_readByte, readByte]
      cases hget : l.input[l.index]? with
      | none =>
          rw [List.drop_eq_nil_of_le (List.getElem?_eq_none_iff.mp hget)]
          rfl
      | some b =>
          obtain ⟨hlt, rfl⟩ := List.getElem?_eq_some_iff.mp hget
          rw [List.drop_eq_getElem_cons hlt, readTagLoop, ok_bind]
          dsimp only
          split_ifs with hlast
          · rfl
          · exact ih (by simp only [Level.advance]; omega) _

/-- A tag is read as before. -/
theorem forget_readTag (l : Level) : forget (readTagKept.on l) = readTag l := by
  refine forget_next (forget_readByte l) fun byte l => ?_
  dsimp only
  split_ifs with hlong
  · rw [forget_bind, forget_get, ok_bind]
    exact forget_next (forget_readTagRounds (by dsimp only; omega) 0) fun nr l => rfl
  · rfl

/-- A length is read as before. -/
theorem forget_readLength (l : Level) : forget (readLengthKept.on l) = readLength l := by
  refine forget_next (forget_readByte l) fun byte l => ?_
  dsimp only
  split_ifs with hlong hmany
  · rfl
  · exact forget_next (forget_readBytes l _) fun bytes l => rfl
  · rfl

/-- A value is read as before. -/
theorem forget_readValue (l : Level) (nr n : ℕ) : forget ((readValueKept nr n).on l) = readValue l nr n := by
  refine forget_next (forget_readBytes l n) fun bytes l => ?_
  dsimp only
  split_ifs
  · exact forget_pureOf (decodeBoolean bytes) Value.bool l
  · exact forget_pureOf (decodeInteger bytes) Value.int l
  · rfl
  · exact forget_pureOf (decodeNull bytes) (fun _ => Value.none) l
  · exact forget_pureOf (decodeObjectIdentifier bytes) Value.str l
  · rfl

/-- What is done with the input on top. -/
theorem forget_onTop (m : Kept PyError Level α) (top : Level) (outer : List Level) (tag : Option Tag) :
    forget ((onTop m).on ⟨some ⟨top, outer⟩, tag⟩) =
      forget (m.on top) >>= fun r => pure (r.1, ⟨some ⟨r.2, outer⟩, tag⟩) := by
  show forget ((m.on top).1, _) = _
  rcases m.on top with ⟨_ | a, l⟩ <;> rfl

/-- `peek` is that of `Decoder`, where it returns. -/
theorem forget_peek (d : Decoder) : forget (Decoder.peekKept.on d) = d.peek := by
  obtain ⟨_ | ⟨top, outer⟩, tag⟩ := d
  · rfl
  rw [Decoder.peekKept, Decoder.peek, forget_bind, forget_onTop, forget_endOfInput]
  show _ = endOfInput top >>= _
  cases endOfInput top with
  | error e => rfl
  | ok eof =>
      cases eof with
      | true => rfl
      | false =>
          show forget ((get >>= fun d => _ : Kept PyError Decoder (Option Tag)).on _) = _
          rw [forget_bind, forget_get, ok_bind]
          cases tag with
          | some tag => rfl
          | none =>
              show forget ((onTop readTagKept >>= fun tag => _).on _) = readTag top >>= _
              rw [forget_bind, forget_onTop, forget_readTag, bind_assoc]
              rfl

/-- What `peek` returns, and where it leaves the decoder. -/
theorem peek_ok {top : Level} {outer : List Level} {tag r : Option Tag}
    (h : (⟨some ⟨top, outer⟩, tag⟩ : Decoder).peek = .ok (r, d)) :
    (endOfInput top = .ok true ∧ r = none ∨ endOfInput top = .ok false ∧ ∃ t, r = some t) ∧
      ∃ top', d = ⟨some ⟨top', outer⟩, d.m_tag⟩ := by
  change (endOfInput top >>= _) = _ at h
  cases heof : endOfInput top with
  | error e =>
      rw [heof] at h
      exact absurd h nofun
  | ok eof =>
      rw [heof, ok_bind] at h
      cases eof with
      | true =>
          obtain ⟨rfl, rfl⟩ := Prod.mk.inj (Except.ok.inj h)
          exact ⟨.inl ⟨rfl, rfl⟩, top, rfl⟩
      | false =>
          cases tag with
          | some tag =>
              obtain ⟨rfl, rfl⟩ := Prod.mk.inj (Except.ok.inj h)
              exact ⟨.inr ⟨rfl, tag, rfl⟩, top, rfl⟩
          | none =>
              change (readTag top >>= _) = _ at h
              obtain ⟨⟨tag, top'⟩, -, hres⟩ := bind_eq_ok.mp h
              obtain ⟨rfl, rfl⟩ := Prod.mk.inj (Except.ok.inj hres)
              exact ⟨.inr ⟨rfl, tag, rfl⟩, top', rfl⟩

/-- `read` is that of `Decoder`, where it returns. -/
theorem forget_read (d : Decoder) : forget (Decoder.readKept.on d) = d.read := by
  obtain ⟨_ | ⟨top, outer⟩, tag⟩ := d
  · rfl
  rw [Decoder.readKept, Decoder.read, forget_bind, forget_onTop, forget_endOfInput]
  show _ = endOfInput top >>= _
  cases heof : endOfInput top with
  | error e => rfl
  | ok eof =>
      cases eof with
      | true => rfl
      | false =>
          show forget ((Decoder.peekKept >>= fun tag => _).on _) = _ >>= _
          rw [forget_bind, forget_peek]
          cases hpeek : (⟨some ⟨top, outer⟩, tag⟩ : Decoder).peek with
          | error e => rfl
          | ok r =>
              obtain ⟨r, d⟩ := r
              obtain ⟨⟨htrue, -⟩ | ⟨-, t, rfl⟩, top', hd⟩ := peek_ok hpeek
              · exact absurd (heof.symm.trans htrue) nofun
              · rw [hd, ok_bind, ok_bind]
                show forget ((onTop readLengthKept >>= fun length => _).on _) = readLength top' >>= _
                rw [forget_bind, forget_onTop, forget_readLength, bind_assoc]
                refine bind_congr fun r => ?_
                show forget ((onTop (readValueKept t.nr r.1) >>= fun value => _).on _) = readValue r.2 t.nr r.1 >>= _
                rw [forget_bind, forget_onTop, forget_readValue, bind_assoc]
                rfl

/-- `enter` is that of `Decoder`, where it returns. -/
theorem forget_enter (d : Decoder) : forget (Decoder.enterKept.on d) = d.enter.map fun d' => ((), d') := by
  obtain ⟨_ | ⟨top, outer⟩, tag⟩ := d
  · rfl
  rw [Decoder.enterKept, Decoder.enter, forget_bind, Decoder.enterBytes, forget_bind, forget_peek]
  cases hpeek : (⟨some ⟨top, outer⟩, tag⟩ : Decoder).peek with
  | error e => rfl
  | ok r =>
      obtain ⟨r, d⟩ := r
      obtain ⟨-, top', hd⟩ := peek_ok hpeek
      rw [hd, ok_bind, ok_bind]
      cases r with
      | none => rfl
      | some t =>
          show forget ((if t.typ ≠ .constructed then _ else _ : Kept PyError Decoder Bytes).on _) >>= _ =
            Except.map _ (if t.typ ≠ .constructed then _ else _)
          split_ifs with htyp
          · rfl
          · show forget ((onTop readLengthKept >>= fun length => _).on _) >>= _ = Except.map _ (readLength top' >>= _)
            rw [forget_bind, forget_onTop, forget_readLength]
            cases readLength top' with
            | error e => rfl
            | ok r =>
                show forget ((onTop (readBytesKept r.1)).on _) >>= _ = Except.map _ (readBytes r.2 r.1 >>= _)
                rw [forget_onTop, forget_readBytes]
                cases readBytes r.2 r.1 <;> rfl

/-- The decoder after a call that returns. -/
def Decoder.after (d : Decoder) : DecoderCall → Except PyError Decoder
  | .peek => d.peek.map Prod.snd
  | .read => d.read.map Prod.snd
  | .eof => d.eof.map fun _ => d
  | .enter => d.enter
  | .leave => d.leave

/-- **The calls** are those of `Decoder`, where they return, and raise what those raise. -/
theorem forget_call (d : Decoder) (c : DecoderCall) : forget (d.call c) = (d.after c).map fun d' => ((), d') := by
  cases c with
  | peek =>
      show forget ((Decoder.peekKept >>= fun _ => pure ()).on d) = Except.map _ (d.peek.map Prod.snd)
      rw [forget_bind, forget_peek]
      cases d.peek <;> rfl
  | read =>
      show forget ((Decoder.readKept >>= fun _ => pure ()).on d) = Except.map _ (d.read.map Prod.snd)
      rw [forget_bind, forget_read]
      cases d.read <;> rfl
  | eof =>
      show forget ((atomic fun d : Decoder => d.eof.map fun _ => ((), d)).on d) = Except.map _ (d.eof.map fun _ => d)
      rw [forget_atomic]
      cases d.eof <;> rfl
  | enter => exact forget_enter d
  | leave => exact forget_atomic _ d

/-! ## No assertion fails -/

/-- Not more was read than there is. -/
def Level.Within (l : Level) : Prop := l.index ≤ l.input.length

/-- No assertion fails. -/
abbrev Safe {α : Type} : Except PyError α → Prop := Outcome (fun _ => True) (· ≠ .assertionError)

/-- Not more is read of an input than there is, and no assertion fails. -/
abbrev SafeOn {α : Type} : Kept PyError Level α → Prop := Keeps Level.Within (· ≠ .assertionError)

/-- `_decode_boolean` raises nothing unexpected. -/
theorem safe_decodeBoolean (bs : Bytes) : Safe (decodeBoolean bs) := by
  unfold decodeBoolean
  split
  · trivial
  · exact nofun

/-- `_decode_integer` raises nothing unexpected. -/
theorem safe_decodeInteger (bs : Bytes) : Safe (decodeInteger bs) := by
  rw [decodeInteger_eq]
  exact .ite (fun _ => nofun) fun _ => .ite (fun _ => nofun) fun _ => trivial

/-- `_decode_null` raises nothing unexpected. -/
theorem safe_decodeNull (bs : Bytes) : Safe (decodeNull bs) := by
  unfold decodeNull
  split
  · trivial
  · exact nofun

/-- The loop over an identifier raises nothing unexpected. -/
theorem safe_identifierLoop (value : ℕ) (result : List ℕ) (bs : Bytes) : Safe (identifierLoop value result bs) := by
  induction bs generalizing value result with
  | nil => trivial
  | cons b bs ih => exact .ite (fun _ => nofun) fun _ => .ite (fun _ => ih _ _) fun _ => ih _ _

/-- `_decode_object_identifier` raises nothing unexpected. -/
theorem safe_decodeObjectIdentifier (bs : Bytes) : Safe (decodeObjectIdentifier bs) := by
  refine (safe_identifierLoop 0 [] bs).bind fun result _ => ?_
  cases result with
  | nil => exact nofun
  | cons first rest => exact .ite (fun _ => nofun) fun _ => trivial

/-- `_read_byte` stays within the input. -/
theorem safe_readByte : SafeOn readByteKept := by
  refine keeps_atomic fun l hl => ?_
  unfold readByte
  cases hget : l.input[l.index]? with
  | none => exact nofun
  | some b => exact (List.getElem?_eq_some_iff.mp hget).1

/-- `_read_bytes` stays within the input. -/
theorem safe_readBytes (n : ℕ) : SafeOn (readBytesKept n) := by
  refine keeps_atomic fun l hl => ?_
  unfold readBytes
  refine .ite (fun h => ?_) fun _ => nofun
  unfold Level.Within at hl
  rw [List.length_take, List.length_drop] at h
  show l.index + n ≤ l.input.length
  omega

/-- `_end_of_input` stays within the input. -/
theorem safe_endOfInput : SafeOn endOfInputKept := by
  refine keeps_atomic fun l hl => ?_
  rw [endOfInput, if_pos (show l.index ≤ l.input.length from hl)]
  exact hl

/-- The loop over a tag stays within the input. -/
theorem safe_readTagRounds (rounds nr : ℕ) : SafeOn (readTagRounds rounds nr) := by
  induction rounds generalizing nr with
  | zero => exact keeps_throw nofun
  | succ rounds ih => exact safe_readByte.bind fun byte => keeps_ite (fun _ => keeps_pure _) fun _ => ih _

/-- `_read_tag` stays within the input. -/
theorem safe_readTag : SafeOn readTagKept := by
  refine safe_readByte.bind fun byte => keeps_ite (fun _ => ?_) fun _ => keeps_pure _
  exact keeps_get.bind fun l => (safe_readTagRounds _ 0).bind fun nr => keeps_pure _

/-- `_read_length` stays within the input. -/
theorem safe_readLength : SafeOn readLengthKept := by
  refine safe_readByte.bind fun byte => keeps_ite (fun _ => ?_) fun _ => keeps_pure _
  exact keeps_ite (fun _ => keeps_throw nofun) fun _ => (safe_readBytes _).bind fun bytes => keeps_pure _

/-- `_read_value` stays within the input. -/
theorem safe_readValue (nr n : ℕ) : SafeOn (readValueKept nr n) := by
  refine (safe_readBytes n).bind fun bs => ?_
  refine keeps_ite (fun _ => (keeps_pureOf (safe_decodeBoolean bs)).bind fun _ => keeps_pure _) fun _ => ?_
  refine keeps_ite (fun _ => (keeps_pureOf (safe_decodeInteger bs)).bind fun _ => keeps_pure _) fun _ => ?_
  refine keeps_ite (fun _ => keeps_pure _) fun _ => ?_
  refine keeps_ite (fun _ => (keeps_pureOf (safe_decodeNull bs)).bind fun _ => keeps_pure _) fun _ => ?_
  exact keeps_ite (fun _ => (keeps_pureOf (safe_decodeObjectIdentifier bs)).bind fun _ => keeps_pure _) fun _ =>
    keeps_pure _

/-- A decoder that was started, and did not read more of any input than there is. -/
def Decoder.Sound (d : Decoder) : Prop :=
  ∃ stack, d.m_stack = some stack ∧ ∀ l ∈ stack.top :: stack.outer, l.Within

/-- The inputs below the one that is read. -/
def Decoder.outer (d : Decoder) : List Level := (d.m_stack.map Stack.outer).getD []

/-- A sound decoder with some inputs below the one that is read. -/
def Decoder.Above (outer : List Level) (d : Decoder) : Prop := d.Sound ∧ d.outer = outer

variable {outer : List Level}

/-- A decoder above some inputs has them on its stack. -/
theorem Decoder.Above.eq (h : d.Above outer) :
    ∃ top, d = ⟨some ⟨top, outer⟩, d.m_tag⟩ ∧ top.Within ∧ ∀ l ∈ outer, l.Within := by
  obtain ⟨⟨⟨top, outer'⟩, hstack, hall⟩, houter⟩ := h
  obtain ⟨htop, hrest⟩ := List.forall_mem_cons.mp hall
  obtain ⟨stack, tag⟩ := d
  obtain rfl : stack = some ⟨top, outer'⟩ := hstack
  obtain rfl : outer' = outer := houter
  exact ⟨top, rfl, htop, hrest⟩

/-- A decoder with another input on top. -/
theorem above_mk {top : Level} (htop : top.Within) (houter : ∀ l ∈ outer, l.Within) (tag : Option Tag) :
    (⟨some ⟨top, outer⟩, tag⟩ : Decoder).Above outer := ⟨⟨_, rfl, List.forall_mem_cons.mpr ⟨htop, houter⟩⟩, rfl⟩

/-- What a call that does not enter or leave does. -/
abbrev Stays {α : Type} (outer : List Level) : Kept PyError Decoder α → Prop :=
  Keeps (Decoder.Above outer) (· ≠ .assertionError)

/-- What stays within the topmost input leaves the others alone. -/
theorem stays_onTop {m : Kept PyError Level α} (hm : SafeOn m) : Stays outer (onTop m) := by
  intro d hd
  obtain ⟨top, hd, htop, houter⟩ := hd.eq
  obtain ⟨hleft, hout⟩ := hm top htop
  rw [hd]
  exact ⟨above_mk hleft houter _, hout⟩

/-- The tag that was read ahead does not matter. -/
theorem stays_tag (tag : Option Tag) :
    Stays outer (modify fun d => { d with m_tag := tag } : Kept PyError Decoder PUnit) :=
  keeps_modify fun _ hd => ⟨hd.1, hd.2⟩

/-- `peek` leaves the inputs around the topmost one alone. -/
theorem stays_peek : Stays outer Decoder.peekKept := by
  refine (stays_onTop safe_endOfInput).bind fun eof => keeps_ite (fun _ => keeps_pure _) fun _ => ?_
  refine keeps_get.bind fun d => ?_
  cases d.m_tag with
  | some tag => exact keeps_pure _
  | none => exact (stays_onTop safe_readTag).bind fun tag => (stays_tag _).bind fun _ => keeps_pure _

/-- `read` leaves the inputs around the topmost one alone. -/
theorem stays_read : Stays outer Decoder.readKept := by
  refine (stays_onTop safe_endOfInput).bind fun eof => keeps_ite (fun _ => keeps_pure _) fun _ => ?_
  refine stays_peek.bind fun tag => (stays_onTop safe_readLength).bind fun length => ?_
  cases tag with
  | none => exact keeps_throw nofun
  | some tag => exact (stays_onTop (safe_readValue _ _)).bind fun value => (stays_tag _).bind fun _ => keeps_pure _

/-- What `enter` reads leaves the inputs around the topmost one alone. -/
theorem stays_enterBytes : Stays outer Decoder.enterBytes := by
  refine stays_peek.bind fun tag => ?_
  cases tag with
  | none => exact keeps_throw nofun
  | some tag =>
      refine keeps_ite (fun _ => keeps_throw nofun) fun _ => ?_
      exact (stays_onTop safe_readLength).bind fun length => stays_onTop (safe_readBytes _)

/-- `eof` raises nothing unexpected. -/
theorem safe_eof (h : d.Above outer) : Safe d.eof := by
  obtain ⟨top, hd, htop, -⟩ := h.eq
  rw [hd]
  show Safe (endOfInput top)
  rw [endOfInput, if_pos (show top.index ≤ top.input.length from htop)]
  trivial

/-- A constructed value is entered above what was there, or the inputs below stay as they are. -/
theorem enter_spec (h : d.Above outer) : Safe (d.call .enter).1 ∧ (d.call .enter).2.Sound ∧
    ((d.call .enter).2.outer = outer ∨ ∃ top, (d.call .enter).2.outer = top :: outer) := by
  obtain ⟨hleft, hsafe⟩ := stays_enterBytes d h
  rcases hon : Decoder.enterBytes.on d with ⟨e | bytes, d'⟩
  · have hcall : d.call .enter = (.error e, d') := on_bind_error hon
    rw [hon] at hleft hsafe
    rw [hcall]
    exact ⟨hsafe, hleft.1, .inl hleft.2⟩
  · have hcall : d.call .enter = (.ok (), d'.push bytes) := on_bind_ok hon
    rw [hon] at hleft
    dsimp only at hleft
    obtain ⟨top, hd', htop, houter⟩ := hleft.eq
    rw [hcall, hd']
    have habove : (Decoder.push ⟨some ⟨top, outer⟩, d'.m_tag⟩ bytes).Above (top :: outer) :=
      above_mk (Nat.zero_le _) (List.forall_mem_cons.mpr ⟨htop, houter⟩) none
    exact ⟨trivial, habove.1, .inr ⟨top, rfl⟩⟩

/-- **What a call does**: no assertion fails, and the inputs below stay as they are, or there is one more, or one
less. -/
theorem call_spec (h : d.Above outer) (c : DecoderCall) : Safe (d.call c).1 ∧ (d.call c).2.Sound ∧
    ((d.call c).2.outer = outer ∨ (∃ top, (d.call c).2.outer = top :: outer) ∨
      ∃ top, outer = top :: (d.call c).2.outer) := by
  cases c with
  | peek =>
      obtain ⟨⟨hsound, houter⟩, hsafe⟩ := (stays_peek.bind fun _ => keeps_pure ()) d h
      exact ⟨hsafe, hsound, .inl houter⟩
  | read =>
      obtain ⟨⟨hsound, houter⟩, hsafe⟩ := (stays_read.bind fun _ => keeps_pure ()) d h
      exact ⟨hsafe, hsound, .inl houter⟩
  | eof =>
      have hkept : Stays outer (atomic fun d : Decoder => d.eof.map fun _ => ((), d)) :=
        keeps_atomic fun d hd => (safe_eof hd).map fun _ _ => hd
      obtain ⟨⟨hsound, houter⟩, hsafe⟩ := hkept d h
      exact ⟨hsafe, hsound, .inl houter⟩
  | enter =>
      obtain ⟨hsafe, hsound, houter⟩ := enter_spec h
      exact ⟨hsafe, hsound, houter.imp_right .inl⟩
  | leave =>
      obtain ⟨top, hd, htop, houter⟩ := h.eq
      generalize d.m_tag = tag at hd
      subst hd
      cases outer with
      | nil => exact ⟨nofun, h.1, .inl rfl⟩
      | cons l outer =>
          obtain ⟨hl, hrest⟩ := List.forall_mem_cons.mp houter
          exact ⟨trivial, (above_mk hl hrest none).1, .inr (.inr ⟨l, rfl⟩)⟩

/-- A decoder that was started has one input. -/
theorem above_start (data : Bytes) : (Decoder.start data).Above [] :=
  above_mk (Nat.zero_le _) (fun _ hl => absurd hl List.not_mem_nil) none

/-- The states that are reached are sound. -/
theorem Decoder.Reached.sound (h : d.Reached data) : d.Sound := by
  refine Lib.Machine.Reached.invariant ?_ (fun d c d' hd _ hcall => ?_) h
  · rintro d rfl
    exact (above_start data).1
  · obtain rfl := Option.some.inj hcall
    exact (call_spec ⟨hd, rfl⟩ c).2.1

/-- **Runs of the decoder**: whatever the data are and in whatever order the calls come, those included that raise, it
never read more of an input than there is, and no call fails with an assertion. -/
theorem reached_safe (h : d.Reached data) :
    (∃ stack, d.m_stack = some stack ∧ ∀ l ∈ stack.top :: stack.outer, l.index ≤ l.input.length) ∧
      ∀ c, (d.call c).1 ≠ .error .assertionError := by
  refine ⟨h.sound, fun c herr => ?_⟩
  have hsafe := (call_spec ⟨h.sound, rfl⟩ c).1
  rw [herr] at hsafe
  exact hsafe rfl

/-- The state that `peek` leaves where the input ends within a tag. -/
theorem reached_raised : (⟨some ⟨⟨2, [31, 129]⟩, []⟩, none⟩ : Decoder).Reached [31, 129] :=
  .next (Decoder.start [31, 129]) _ .peek (.start _ rfl) trivial (by decide)

/-- A tag that ends too early: the index stays behind what was read. -/
theorem reached_safe_raised :
    (∃ stack, (⟨some ⟨⟨2, [31, 129]⟩, []⟩, none⟩ : Decoder).m_stack = some stack ∧
      ∀ l ∈ stack.top :: stack.outer, l.index ≤ l.input.length) ∧
      ∀ c, ((⟨some ⟨⟨2, [31, 129]⟩, []⟩, none⟩ : Decoder).call c).1 ≠ .error .assertionError :=
  reached_safe reached_raised

/-! ## What is read of a constructed value -/

/-- What is left depends on the inputs below only. -/
theorem leave_congr (h : d₁.Above outer) (h' : d₂.Above outer) : d₁.leave = d₂.leave := by
  obtain ⟨top, hd, -, -⟩ := h.eq
  obtain ⟨top', hd', -, -⟩ := h'.eq
  rw [hd, hd']
  rfl

/-- The decoder after some calls. -/
def Decoder.calls (d : Decoder) (cs : List DecoderCall) : Decoder := cs.foldl (fun d c => (d.call c).2) d

/-- Some calls that never leave a level leave alone what is below it. -/
theorem suffix_of_calls {cs : List DecoderCall} (h : d.Sound)
    (hinside : ∀ pre, pre <+: cs → d.outer.length ≤ (d.calls pre).outer.length) :
    (d.calls cs).Sound ∧ d.outer <:+ (d.calls cs).outer := by
  induction cs using List.reverseRecOn with
  | nil => exact ⟨h, List.suffix_refl _⟩
  | append_singleton cs c ih =>
      have hlen := hinside _ (List.prefix_refl _)
      obtain ⟨hsound, hsuffix⟩ := ih fun pre hpre => hinside pre (hpre.trans (List.prefix_append _ _))
      have hlast : d.calls (cs ++ [c]) = ((d.calls cs).call c).2 := by
        rw [Decoder.calls, List.foldl_append]
        rfl
      rw [hlast] at hlen ⊢
      obtain ⟨-, hsound', houter⟩ := call_spec ⟨hsound, rfl⟩ c
      refine ⟨hsound', ?_⟩
      rcases houter with heq | ⟨top, heq⟩ | ⟨top, heq⟩
      · rwa [heq]
      · rw [heq]
        exact hsuffix.trans (List.suffix_cons top _)
      · rw [heq, List.suffix_cons_iff] at hsuffix
        rcases hsuffix with hsame | hsuffix
        · rw [hsame, List.length_cons] at hlen
          omega
        · exact hsuffix

/-- **Behind a constructed value** the decoder goes on in the same way, whatever was read of it and whatever was
raised: calls that end where they began do not matter for what is found after `leave`. -/
theorem leave_eq {cs : List DecoderCall} (h : d.Reached data)
    (hinside : ∀ pre, pre <+: cs → d.outer.length ≤ (d.calls pre).outer.length)
    (hend : (d.calls cs).outer.length = d.outer.length) : (d.calls cs).leave = d.leave := by
  obtain ⟨hsound, hsuffix⟩ := suffix_of_calls h.sound hinside
  exact leave_congr ⟨hsound, (hsuffix.eq_of_length hend.symm).symm⟩ ⟨h.sound, rfl⟩

/-- A value is read whose length is missing, and then left. -/
theorem leave_eq_raised : ((⟨some ⟨⟨0, [4]⟩, [⟨3, [48, 1, 4]⟩]⟩, none⟩ : Decoder).calls [.read, .read]).leave =
    (⟨some ⟨⟨0, [4]⟩, [⟨3, [48, 1, 4]⟩]⟩, none⟩ : Decoder).leave := by
  have hreached : (⟨some ⟨⟨0, [4]⟩, [⟨3, [48, 1, 4]⟩]⟩, none⟩ : Decoder).Reached [48, 1, 4] :=
    .next (Decoder.start [48, 1, 4]) _ .enter (.start _ rfl) trivial (by decide)
  have hinside : ∀ pre ∈ [DecoderCall.read, .read].inits, 1 ≤
      ((⟨some ⟨⟨0, [4]⟩, [⟨3, [48, 1, 4]⟩]⟩, none⟩ : Decoder).calls pre).outer.length := by decide
  exact leave_eq hreached (fun pre hpre => hinside pre ((List.mem_inits _ _).mpr hpre)) (by decide)

end Asenal.Ad
