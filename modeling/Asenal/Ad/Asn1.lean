import Asenal.Lib.Text
import Asenal.Lib.Nested
import Mathlib.Data.Int.Notation

/-!
# ASN.1

The encoder and the decoder of `asn1.py`. What an exception leaves of a decoder is in `Asn1Safe`.

* `Encoder.enter`, `Encoder.leave`, `Encoder.write`, `Encoder.output` — the calls of the encoder.
* `Decoder.peek`, `Decoder.read`, `Decoder.enter`, `Decoder.leave`, `Decoder.eof` — the calls of the decoder.
-/

namespace Asenal.Ad

open Asenal.Lib.Text

/-! ## Exceptions, tags and values -/

/-- What a call may raise: the `Error` of one of the modules, or an exception of the language; `unending` stands for
a loop that does not end. -/
inductive PyError
  | asn1 (message : String)
  | ldap (message : String)
  | ldapfilter (message : String)
  | netlogon (message : String)
  | typeError
  | valueError
  | indexError
  | keyError
  | assertionError
  | unboundLocalError
  | unending
deriving DecidableEq

/-- Results of calls can be compared. -/
instance {α : Type} [DecidableEq α] : DecidableEq (Except PyError α)
  | .ok a, .ok b => decidable_of_iff (a = b) (by simp)
  | .error e, .error f => decidable_of_iff (e = f) (by simp)
  | .ok _, .error _ => .isFalse (by simp)
  | .error _, .ok _ => .isFalse (by simp)

/-- The number of a boolean. -/
def Boolean : ℕ := 0x01

/-- The number of an integer. -/
def Integer : ℕ := 0x02

/-- The number of an octet string. -/
def OctetString : ℕ := 0x04

/-- The number of the null value. -/
def Null : ℕ := 0x05

/-- The number of an object identifier. -/
def ObjectIdentifier : ℕ := 0x06

/-- The number of an enumerated value. -/
def Enumerated : ℕ := 0x0a

/-- The number of a sequence. -/
def Sequence : ℕ := 0x10

/-- The number of a set. -/
def Set : ℕ := 0x11

/-- `TypePrimitive` and `TypeConstructed`. -/
inductive TagType
  | primitive
  | constructed
deriving DecidableEq

/-- `ClassUniversal`, `ClassApplication`, `ClassContext` and `ClassPrivate`. -/
inductive TagClass
  | universal
  | application
  | context
  | priv
deriving DecidableEq

/-- The bit of a type in the first byte of a tag. -/
def TagType.code : TagType → ℕ
  | .primitive => 0x00
  | .constructed => 0x20

/-- The bits of a class in the first byte of a tag. -/
def TagClass.code : TagClass → ℕ
  | .universal => 0x00
  | .application => 0x40
  | .context => 0x80
  | .priv => 0xc0

/-- `byte & 0x20`. -/
def TagType.ofByte (byte : ℕ) : TagType := if byte &&& 0x20 = 0 then .primitive else .constructed

/-- `byte & 0xc0`. -/
def TagClass.ofByte (byte : ℕ) : TagClass :=
  if byte &&& 0xc0 = 0x00 then .universal else if byte &&& 0xc0 = 0x40 then .application
  else if byte &&& 0xc0 = 0x80 then .context else .priv

/-- A tag: its number, its type and its class. -/
structure Tag where
  nr : ℕ
  typ : TagType
  cls : TagClass
deriving DecidableEq

/-- The values that are written and read: `bool`, `int` and `long`, `str`, and `None`. -/
inductive Value
  | bool (b : Bool)
  | int (v : ℤ)
  | str (s : Bytes)
  | none
deriving DecidableEq

/-- A list that is not empty, its last element first. -/
structure Stack (α : Type) where
  top : α
  outer : List α
deriving DecidableEq

/-- The encoder was not started. -/
def notInitialized : PyError := .asn1 "Encoder not initialized. Call start() first."

/-- There is no constructed value to leave. -/
def stackEmpty : PyError := .asn1 "Tag stack is empty."

/-- A constructed value is not finished. -/
def stackNotEmpty : PyError := .asn1 "Stack is not empty."

/-- A text that is no object identifier. -/
def illegalIdentifier : PyError := .asn1 "Illegal object identifier"

/-- The decoder was not started. -/
def noInput : PyError := .asn1 "No input selected. Call start() first."

/-- A tag that is primitive cannot be entered. -/
def notConstructed : PyError := .asn1 "Cannot enter a non-constructed tag."

/-- The input is no ASN.1. -/
def syntaxError : PyError := .asn1 "ASN1 syntax error"

/-- The input ends too early. -/
def prematureEnd : PyError := .asn1 "Premature end of input."

/-! ## The encoder -/

/-- An `Encoder`: for each constructed value that is not finished, the strings that were emitted for it. -/
structure Encoder where
  m_stack : Option (Stack (List Bytes))

/-- `start()`. -/
def Encoder.start : Encoder := ⟨some ⟨[], []⟩⟩

/-- `m_stack`, if the encoder was started. -/
def Encoder.stack (e : Encoder) : Except PyError (Stack (List Bytes)) :=
  match e.m_stack with
  | none => .error notInitialized
  | some stack => .ok stack

/-- `_emit`, for some strings one after the other. -/
def emit (stack : Stack (List Bytes)) (strings : List Bytes) : Stack (List Bytes) :=
  { stack with top := stack.top ++ strings }

/-- `_emit_tag_short`. -/
def emitTagShort (nr : ℕ) (typ : TagType) (cls : TagClass) : List Bytes :=
  [[UInt8.ofNat (nr ||| typ.code ||| cls.code)]]

/-- The loop of `_emit_tag_long`. -/
def tagLoop (nr : ℕ) : List ℕ :=
  if nr = 0 then [] else ((nr &&& 0x7f) ||| 0x80) :: tagLoop (nr >>> 7)
termination_by nr
decreasing_by simp only [Nat.shiftRight_eq_div_pow]; omega

/-- `_emit_tag_long`. -/
def emitTagLong (nr : ℕ) (typ : TagType) (cls : TagClass) : List Bytes :=
  let values := (nr &&& 0x7f) :: tagLoop (nr >>> 7)
  [UInt8.ofNat (typ.code ||| cls.code ||| 0x1f)] :: values.reverse.map fun val => [UInt8.ofNat val]

/-- `_emit_tag`. -/
def emitTag (nr : ℕ) (typ : TagType) (cls : TagClass) : List Bytes :=
  if nr < 31 then emitTagShort nr typ cls else emitTagLong nr typ cls

/-- The loop of `_emit_length_long`. -/
def lengthLoop (length : ℕ) : List ℕ :=
  if length = 0 then [] else (length &&& 0xff) :: lengthLoop (length >>> 8)
termination_by length
decreasing_by simp only [Nat.shiftRight_eq_div_pow]; omega

/-- `_emit_length`: the short form, or the number of bytes and the bytes of the length. -/
def emitLength (length : ℕ) : Except PyError (List Bytes) :=
  if length < 128 then .ok [[UInt8.ofNat length]]
  else
    let values := lengthLoop length
    if values.length < 127 then
      .ok ([UInt8.ofNat (0x80 ||| values.length)] :: values.reverse.map fun val => [UInt8.ofNat val])
    else .error .assertionError

/-- The first loop of `_encode_integer`: the bytes of a number, the lowest first. -/
def integerLoop (limit value : ℕ) : List ℕ :=
  if limit < value then (value &&& 0xff) :: integerLoop limit (value >>> 8) else [value &&& 0xff]
termination_by value
decreasing_by simp only [Nat.shiftRight_eq_div_pow]; omega

/-- One is added to the bytes, the lowest first; there is an assertion that it fits. -/
def addOne : List ℕ → Except PyError (List ℕ)
  | [] => .ok []
  | v :: vs =>
      if v + 1 ≤ 0xff then .ok ((v + 1) :: vs)
      else if vs = [] then .error .assertionError
      else (addOne vs).map (0 :: ·)

/-- `_encode_integer`: the complement of a negative number, the lowest byte first, and one added to it. -/
def encodeInteger (value : ℤ) : Except PyError Bytes := do
  let negative := value < 0
  let limit := if negative then 0x80 else 0x7f
  let values := integerLoop limit value.natAbs
  let values ← if negative then addOne (values.map (0xff - ·)) else pure values
  return values.reverse.map UInt8.ofNat

/-- `_re_oid`: digits and points; `$` stands at the end or in front of a newline there. -/
def reOid (oid : Bytes) : Bool :=
  let parts := (if oid.getLast? = some 10 then oid.dropLast else oid).splitOn 46
  2 ≤ parts.length && parts.all fun part => part ≠ [] && part.all isDigit

/-- `map(int, oid.split('.'))`; a newline is not looked at. -/
def components (oid : Bytes) : List ℕ := (oid.splitOn 46).map fun part => digitsVal (part.filter isDigit)

/-- The loop behind the lowest seven bits of a component. -/
def componentLoop (cmp : ℕ) : List ℕ :=
  if 0x7f < cmp then (0x80 ||| ((cmp >>> 7) &&& 0x7f)) :: componentLoop (cmp >>> 7) else []
termination_by cmp
decreasing_by simp only [Nat.shiftRight_eq_div_pow]; omega

/-- `_encode_object_identifier`: the first two components in one, each in groups of seven bits. -/
def encodeObjectIdentifier (oid : Bytes) : Except PyError Bytes :=
  if reOid oid then
    match components oid with
    | first :: second :: rest =>
        if 39 < first ∨ 39 < second then .error illegalIdentifier
        else
          let cmps := (40 * first + second) :: rest
          let result := cmps.reverse.flatMap fun cmp => (cmp &&& 0x7f) :: componentLoop cmp
          .ok (result.reverse.map UInt8.ofNat)
    | _ => .error .indexError
  else .error illegalIdentifier

/-- `value and '\xff' or '\x00'`: whether a value is true. -/
def Value.truth : Value → Bool
  | .bool b => b
  | .int v => v ≠ 0
  | .str s => s ≠ []
  | .none => false

/-- `_encode_value`, together with `len(value)`, which wants a string. -/
def encodeValue (nr : ℕ) (value : Value) : Except PyError Bytes :=
  if nr = Integer ∨ nr = Enumerated then
    match value with
    | .int v => encodeInteger v
    | .bool b => encodeInteger b.toInt
    | _ => .error .typeError
  else if nr = Boolean then .ok [if value.truth then 0xff else 0x00]
  else if nr = Null then .ok []
  else
    match value with
    | .str s => if nr = ObjectIdentifier then encodeObjectIdentifier s else .ok s
    | _ => .error .typeError

/-- The tag number that `write` takes where none is given. -/
def Value.defaultNr : Value → ℕ
  | .bool _ => Integer
  | .int _ => Integer
  | .str _ => OctetString
  | .none => Null

/-- `enter(nr, cls)`: a tag is emitted, and what comes next belongs to its value. -/
def Encoder.enter (e : Encoder) (nr : ℕ) (cls : Option TagClass) : Except PyError Encoder := do
  let stack ← e.stack
  let stack := emit stack (emitTag nr .constructed (cls.getD .universal))
  return ⟨some ⟨[], stack.top :: stack.outer⟩⟩

/-- `leave()`: the value is emitted behind its length. -/
def Encoder.leave (e : Encoder) : Except PyError Encoder := do
  let stack ← e.stack
  match stack.outer with
  | [] => .error stackEmpty
  | top :: outer =>
      let value := stack.top.flatten
      let length ← emitLength value.length
      return ⟨some (emit ⟨top, outer⟩ (length ++ [value]))⟩

/-- `write(value, nr, typ, cls)`: a tag, a length and a value are emitted. -/
def Encoder.write (e : Encoder) (value : Value) (nr : Option ℕ) (typ : Option TagType) (cls : Option TagClass) :
    Except PyError Encoder := do
  let stack ← e.stack
  let nr := nr.getD value.defaultNr
  let value ← encodeValue nr value
  let stack := emit stack (emitTag nr (typ.getD .primitive) (cls.getD .universal))
  let length ← emitLength value.length
  return ⟨some (emit stack (length ++ [value]))⟩

/-- `output()`: what was emitted, if no constructed value is open. -/
def Encoder.output (e : Encoder) : Except PyError Bytes := do
  let stack ← e.stack
  if stack.outer = [] then return stack.top.flatten else .error stackNotEmpty

/-! ## The decoder -/

/-- Some input, and how much of it was read. -/
structure Level where
  index : ℕ
  input : Bytes
deriving DecidableEq

/-- A `Decoder`: the inputs of the constructed values that were entered, and a tag that was read ahead. -/
structure Decoder where
  m_stack : Option (Stack Level)
  m_tag : Option Tag
deriving DecidableEq

/-- `start(data)`. -/
def Decoder.start (data : Bytes) : Decoder := ⟨some ⟨⟨0, data⟩, []⟩, none⟩

/-- `m_stack`, if the decoder was started. -/
def Decoder.stack (d : Decoder) : Except PyError (Stack Level) :=
  match d.m_stack with
  | none => .error noInput
  | some stack => .ok stack

/-- Some bytes are read. -/
def Level.advance (l : Level) (count : ℕ) : Level := { l with index := l.index + count }

/-- `_read_byte`. -/
def readByte (l : Level) : Except PyError (ℕ × Level) :=
  match l.input[l.index]? with
  | some byte => .ok (byte.toNat, l.advance 1)
  | none => .error prematureEnd

/-- `_read_bytes`. -/
def readBytes (l : Level) (count : ℕ) : Except PyError (Bytes × Level) :=
  let bytes := (l.input.drop l.index).take count
  if bytes.length = count then .ok (bytes, l.advance count) else .error prematureEnd

/-- `_end_of_input`, with its assertion. -/
def endOfInput (l : Level) : Except PyError Bool :=
  if l.index ≤ l.input.length then .ok (l.index = l.input.length) else .error .assertionError

/-- The loop of `_read_tag`, over the bytes that are left. -/
def readTagLoop (l : Level) : ℕ → Bytes → Except PyError (ℕ × Level)
  | _, [] => .error prematureEnd
  | nr, byte :: rest =>
      let nr := (nr <<< 7) ||| (byte.toNat &&& 0x7f)
      if byte.toNat &&& 0x80 = 0 then .ok (nr, l.advance 1) else readTagLoop (l.advance 1) nr rest

/-- `_read_tag`. -/
def readTag (l : Level) : Except PyError (Tag × Level) := do
  let (byte, l) ← readByte l
  let cls := TagClass.ofByte byte
  let typ := TagType.ofByte byte
  let nr := byte &&& 0x1f
  if nr = 0x1f then
    let (nr, l) ← readTagLoop l 0 (l.input.drop l.index)
    return (⟨nr, typ, cls⟩, l)
  else return (⟨nr, typ, cls⟩, l)

/-- `_read_length`. -/
def readLength (l : Level) : Except PyError (ℕ × Level) := do
  let (byte, l) ← readByte l
  if byte &&& 0x80 ≠ 0 then
    let count := byte &&& 0x7f
    if count = 0x7f then .error syntaxError
    else
      let (bytes, l) ← readBytes l count
      return (bytes.foldl (fun length byte => (length <<< 8) ||| byte.toNat) 0, l)
  else return (byte, l)

/-- `_decode_boolean`. -/
def decodeBoolean : Bytes → Except PyError Bool
  | [byte] => .ok (byte ≠ 0)
  | _ => .error syntaxError

/-- The number is not normalized: its first nine bits are the same. -/
def notNormalized : List ℕ → Bool
  | v :: w :: _ => (v = 0xff && w &&& 0x80 ≠ 0) || (v = 0x00 && w &&& 0x80 = 0)
  | _ => false

/-- `_decode_integer`: the shortest form only; of a negative number the complement, and one added to it. -/
def decodeInteger (bytes : Bytes) : Except PyError ℤ := do
  let values := bytes.map UInt8.toNat
  if notNormalized values then .error syntaxError
  else
    match values with
    | [] => .error .indexError
    | first :: _ =>
        let negative := first &&& 0x80 ≠ 0
        let values ← if negative then (addOne (values.map (0xff - ·)).reverse).map List.reverse else pure values
        let value : ℕ := values.foldl (fun value val => (value <<< 8) ||| val) 0
        return if negative then -(value : ℤ) else value

/-- `_decode_null`. -/
def decodeNull : Bytes → Except PyError Unit
  | [] => .ok ()
  | _ => .error syntaxError

/-- The loop of `_decode_object_identifier`. -/
def identifierLoop : ℕ → List ℕ → Bytes → Except PyError (List ℕ)
  | _, result, [] => .ok result
  | value, result, byte :: rest =>
      if value = 0 ∧ byte = 0x80 then .error syntaxError
      else
        let value := (value <<< 7) ||| (byte.toNat &&& 0x7f)
        if byte.toNat &&& 0x80 = 0 then identifierLoop 0 (result ++ [value]) rest
        else identifierLoop value result rest

/-- `_decode_object_identifier`. -/
def decodeObjectIdentifier (bytes : Bytes) : Except PyError Bytes := do
  let result ← identifierLoop 0 [] bytes
  match result with
  | [] => .error syntaxError
  | first :: rest =>
      if 1599 < first then .error syntaxError
      else return [46].intercalate ((first / 40 :: first % 40 :: rest).map dec)

/-- `_read_value`. -/
def readValue (l : Level) (nr length : ℕ) : Except PyError (Value × Level) := do
  let (bytes, l) ← readBytes l length
  if nr = Boolean then return (.bool (← decodeBoolean bytes), l)
  else if nr = Integer ∨ nr = Enumerated then return (.int (← decodeInteger bytes), l)
  else if nr = OctetString then return (.str bytes, l)
  else if nr = Null then
    decodeNull bytes
    return (.none, l)
  else if nr = ObjectIdentifier then return (.str (← decodeObjectIdentifier bytes), l)
  else return (.str bytes, l)

/-- `peek()`: the next tag, which is kept for `read` and `enter`; at the end of the input none. -/
def Decoder.peek (d : Decoder) : Except PyError (Option Tag × Decoder) := do
  let stack ← d.stack
  if ← endOfInput stack.top then return (none, d)
  else
    match d.m_tag with
    | some tag => return (some tag, d)
    | none =>
        let (tag, top) ← readTag stack.top
        return (some tag, ⟨some { stack with top := top }, some tag⟩)

/-- `read()`: the next tag with its value; at the end of the input none. -/
def Decoder.read (d : Decoder) : Except PyError (Option (Tag × Value) × Decoder) := do
  let stack ← d.stack
  if ← endOfInput stack.top then return (none, d)
  else
    let (tag, d) ← d.peek
    let stack ← d.stack
    match tag with
    | none => .error .typeError
    | some tag =>
        let (length, top) ← readLength stack.top
        let (value, top) ← readValue top tag.nr length
        return (some (tag, value), ⟨some { stack with top := top }, none⟩)

/-- `eof()`: nothing is left of the input. -/
def Decoder.eof (d : Decoder) : Except PyError Bool :=
  match d.m_stack with
  | none => .error .typeError
  | some stack => endOfInput stack.top

/-- `enter()`: the value of a constructed tag becomes the input. -/
def Decoder.enter (d : Decoder) : Except PyError Decoder := do
  let (tag, d) ← d.peek
  let stack ← d.stack
  match tag with
  | none => .error .typeError
  | some tag =>
      if tag.typ ≠ .constructed then .error notConstructed
      else
        let (length, top) ← readLength stack.top
        let (bytes, top) ← readBytes top length
        return ⟨some ⟨⟨0, bytes⟩, top :: stack.outer⟩, none⟩

/-- `leave()`: back to the input around the value that was entered. -/
def Decoder.leave (d : Decoder) : Except PyError Decoder := do
  let stack ← d.stack
  match stack.outer with
  | [] => .error stackEmpty
  | top :: outer => return ⟨some ⟨top, outer⟩, none⟩

end Asenal.Ad
