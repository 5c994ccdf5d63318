import Asenal.Ad.LdapText
import Asenal.Lib.OrderedMap

/-!
# Requests and results

The client of `ldap.py`: how it writes a search request, and how it reads what comes back.

* `createSearchRequest` — a request, with a filter that is parsed.
* `parseMessageHeader` — the number of a message, and what it is.
* `parseSearchResult` — the entries of a result.
-/

namespace Asenal.Ad

open Asenal.Lib.Text Asenal.Lib.Raised Asenal.Lib.OrderedMap

def SCOPE_SUBTREE : ℤ := 2

def DEREF_NEVER : ℤ := 0

/-! ## Requests -/

/-- `encoder.write(value)`. -/
def Encoder.put (e : Encoder) (value : Value) : Except PyError Encoder := e.write value none none none

/-- An item: its tag, and what stands under it. -/
def encodeItem (e : Encoder) (nr : ℕ) (values : List Bytes) : Except PyError Encoder := do
  let e ← e.enter nr (some .context)
  let e ← values.foldlM (fun e s => e.put (.str s)) e
  e.leave

mutual

/-- `_encode_filter`; under `NOT` it is called with a variable that has no value. -/
def encodeFilter (e : Encoder) : Filter → Except PyError Encoder
  | .and terms => do
      let e ← e.enter 0 (some .context)
      let e ← encodeTerms e terms
      e.leave
  | .or terms => do
      let e ← e.enter 1 (some .context)
      let e ← encodeTerms e terms
      e.leave
  | .not _ => do
      let _ ← e.enter 2 (some .context)
      .error .unboundLocalError
  | .equals type value => encodeItem e 3 [type, value]
  | .lte type value => encodeItem e 5 [type, value]
  | .gte type value => encodeItem e 6 [type, value]
  | .present type => encodeItem e 7 [type]
  | .approx type value => encodeItem e 8 [type, value]

/-- The loop over the terms. -/
def encodeTerms (e : Encoder) : Terms → Except PyError Encoder
  | .one term => encodeFilter e term
  | .cons term terms => do
      let e ← encodeFilter e term
      encodeTerms e terms

end

/-- The arguments of `create_search_request` behind `dn` and `filter`. -/
structure SearchOptions where
  attrs : Option (List Bytes) := none
  scope : Option ℤ := none
  sizelimit : Option ℤ := none
  timelimit : Option ℤ := none
  deref : Option ℤ := none
  typesonly : Option Bool := none
  msgid : Option ℤ := none

/-- `create_search_request`. -/
def createSearchRequest (ply : Ply) (dn : Bytes) (filter : Option Bytes) (o : SearchOptions) :
    Except PyError Bytes := do
  let filter := filter.getD (ascii "(objectClass=*)")
  let attrs := o.attrs.getD []
  let scope := o.scope.getD SCOPE_SUBTREE
  let sizelimit := o.sizelimit.getD 0
  let timelimit := o.timelimit.getD 0
  let deref := o.deref.getD DEREF_NEVER
  let typesonly := o.typesonly.getD false
  let msgid := o.msgid.getD 1
  let parsed ← parse ply filter
  let e ← Encoder.start.enter Sequence none
  let e ← e.put (.int msgid)
  let e ← e.enter 3 (some .application)
  let e ← e.put (.str dn)
  let e ← e.write (.int scope) (some Enumerated) none none
  let e ← e.write (.int deref) (some Enumerated) none none
  let e ← e.put (.int sizelimit)
  let e ← e.put (.int timelimit)
  let e ← e.write (.bool typesonly) (some Boolean) none none
  let e ← encodeFilter e parsed
  let e ← e.enter Sequence none
  let e ← attrs.foldlM (fun e attr => e.put (.str attr)) e
  let e ← e.leave
  let e ← e.leave
  let e ← e.leave
  e.output

/-! ## Results -/

def ldapSyntaxError : PyError := .ldap "LDAP syntax error"

/-- The second argument of `_check_tag`: one tag number, some of them, or `None`. -/
inductive TagId
  | one (nr : ℕ)
  | several (nrs : List ℕ)
  | any

/-- The type that is wanted where none is given. -/
def TagId.defaultType : TagId → TagType
  | .one nr => if nr = Sequence ∨ nr = Set then .constructed else .primitive
  | _ => .primitive

def TagId.allows (nr : ℕ) : TagId → Bool
  | .one id => nr = id
  | .several ids => ids.contains nr
  | .any => true

/-- `_check_tag`; `None` has no first element. -/
def checkTag (tag : Option Tag) (id : TagId) (typ : Option TagType) (cls : Option TagClass) : Except PyError Unit :=
  match tag with
  | none => .error .typeError
  | some tag =>
      if !id.allows tag.nr then .error ldapSyntaxError
      else if tag.typ ≠ typ.getD id.defaultType ∨ tag.cls ≠ cls.getD .universal then .error ldapSyntaxError
      else .ok ()

/-- `self._check_tag(decoder.peek(), id)`. -/
def expect (d : Decoder) (id : TagId) : Except PyError Decoder := do
  let (tag, d) ← d.peek
  checkTag tag id none none
  return d

/-- `decoder.read()[1]`. -/
def readSecond (d : Decoder) : Except PyError (Value × Decoder) := do
  let (result, d) ← d.read
  match result with
  | none => .error .typeError
  | some (_, value) => return (value, d)

/-- `parse_message_header`. -/
def parseMessageHeader (buffer : Bytes) : Except PyError (Value × ℕ) := do
  let d := Decoder.start buffer
  let d ← expect d (.one Sequence)
  let d ← d.enter
  let d ← expect d (.one Integer)
  let (msgid, d) ← readSecond d
  let (tag, _) ← d.peek
  checkTag tag .any (some .constructed) (some .application)
  match tag with
  | none => .error .typeError
  | some tag => return (msgid, tag.nr)

/-- The attributes of an entry. -/
abbrev Attrs := AList fun _ : Value => List Value

/-- The loop over the values of an attribute. -/
def valuesBody : Decoder × List Value → Except PyError (Decoder × List Value ⊕ Decoder × List Value)
  | (d, values) => do
      let (tag, d) ← d.peek
      if tag = none then return .inr (d, values)
      else
        checkTag tag (.one OctetString) none none
        let (value, d) ← readSecond d
        return .inl (d, values ++ [value])

/-- How much is left of the input that is read. -/
def Level.left (l : Level) : ℕ := l.input.length - l.index

def Decoder.left (d : Decoder) : ℕ := ((d.m_stack.map Stack.top).map Level.left).getD 0

/-- The loop over the attributes of an entry. -/
def attrsBody : Decoder × Attrs → Except PyError (Decoder × Attrs ⊕ Decoder × Attrs)
  | (d, attrs) => do
      let (tag, d) ← d.peek
      if tag = none then return .inr (d, attrs)
      else
        checkTag tag (.one Sequence) none none
        let d ← d.enter
        let d ← expect d (.one OctetString)
        let (name, d) ← readSecond d
        let d ← expect d (.one Set)
        let d ← d.enter
        let (d, values) ← loop .unending valuesBody (d.left + 1) (d, [])
        let attrs := put attrs name values
        let d ← d.leave
        let d ← d.leave
        return .inl (d, attrs)

/-- An entry of a result: `(msgid, dn, attrs)`. -/
structure Message where
  msgid : Value
  dn : Value
  attrs : Attrs

/-- The loop over the messages; what was entered last of a message is not left again. -/
def messagesBody : Decoder × List Message → Except PyError (Decoder × List Message ⊕ List Message)
  | (d, messages) => do
      let (tag, d) ← d.peek
      if tag = none then return .inr messages
      else
        checkTag tag (.one Sequence) none none
        let d ← d.enter
        let d ← expect d (.one Integer)
        let (msgid, d) ← readSecond d
        let (tag, d) ← d.peek
        checkTag tag (.several [4, 5]) (some .constructed) (some .application)
        if tag.map Tag.nr = some 5 then return .inr messages
        else
          let d ← d.enter
          let d ← expect d (.one OctetString)
          let (dn, d) ← readSecond d
          let d ← expect d (.one Sequence)
          let d ← d.enter
          let (d, attrs) ← loop .unending attrsBody (d.left + 1) (d, ∅)
          let d ← d.leave
          return .inl (d, messages ++ [⟨msgid, dn, attrs⟩])

/-- `parse_search_result`. -/
def parseSearchResult (buffer : Bytes) : Except PyError (List Message) :=
  let d := Decoder.start buffer
  loop .unending messagesBody (d.left + 1) (d, [])

end Asenal.Ad
