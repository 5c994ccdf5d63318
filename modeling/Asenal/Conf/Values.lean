import Asenal.Lib.Scan
import Asenal.Conf.Include
import Asenal.Conf.RoundTrip

/-!
# Numbers in a table

A number is stored as decimal text and read again by a parser that takes a leading `0` for the sign of
another base. There are four copies of the three functions, one for each width and sign; they differ in
the conversions they use.

* `Conv.Faithful` — what the conversions of a copy have to do, and `faithful_*` that they do it.
* `firstValue_addconf`, `firstValue_modify` — what the calls do to the value of a name.
* `firstValue_calls` — calls for other names do nothing to it.
* `conf_values_kept` — a number is read back, also from a file.
-/

namespace Asenal.Conf

open Asenal.Lib.Text Asenal.Lib.CString Asenal.Lib.Memory Asenal.Lib.Scan

/-! ## The conversions -/

/-- What the functions for numbers of one type differ in: how one is printed, the conversions of
`sscanf` for decimal, octal and hexadecimal digits, and `0`. -/
structure Conv (α : Type) where
  print : α → Bytes
  scan : Bytes → Option α
  scanOct : Bytes → Option α
  scanHex : Bytes → Option α
  zero : α

/-- `%d`, `%o`, `%x`. -/
def convInt : Conv Int32 where
  print x := decInt x.toInt
  scan s := (scanDec s).map toInt32
  scanOct s := (scanBase 8 s).map fun v => (toULong v).toUInt32.toInt32
  scanHex s := (scanBase 16 s).map fun v => (toULong v).toUInt32.toInt32
  zero := 0

/-- `%u`, `%o`, `%x`. -/
def convUint : Conv UInt32 where
  print x := dec x.toNat
  scan s := (scanDec s).map fun v => (toULong v).toUInt32
  scanOct s := (scanBase 8 s).map fun v => (toULong v).toUInt32
  scanHex s := (scanBase 16 s).map fun v => (toULong v).toUInt32
  zero := 0

/-- `%lld`, `%llo`, `%llx`. -/
def convInt64 : Conv Int64 where
  print x := decInt x.toInt
  scan s := (scanDec s).map toLong
  scanOct s := (scanBase 8 s).map fun v => (toULong v).toInt64
  scanHex s := (scanBase 16 s).map fun v => (toULong v).toInt64
  zero := 0

/-- `%llu`, `%llo`, `%llx`. -/
def convUint64 : Conv UInt64 where
  print x := dec x.toNat
  scan s := (scanDec s).map toULong
  scanOct s := (scanBase 8 s).map toULong
  scanHex s := (scanBase 16 s).map toULong
  zero := 0

/-! ## The functions -/

/-- The first index of a name in the table. -/
def firstIndex (d : ConfData) (name : Bytes) : Option ℕ :=
  (List.range d.num).find? fun i => (d.item i).name == name

/-- Set the value of the first item with a name. Source: `ul_conf.cpp`, the loop of
`ul_modifyconfstr` and its copies. -/
def modifyFirst (d : ConfData) (name value : Bytes) : ℤ × ConfData :=
  match firstIndex d name with
  | some i => (1, { d with item := Function.update d.item i { d.item i with value := value } })
  | none => (0, d)

/-- A value that is added or modified; of a `float` its text is given, which `%f` prints. -/
inductive ConfValue
  | string (s : Bytes)
  | int (x : Int32)
  | uint (x : UInt32)
  | int64 (x : Int64)
  | uint64 (x : UInt64)
  | float (text : Bytes)

/-- What is stored for a value; a string must fit. -/
def ConfValue.text? : ConfValue → Option Bytes
  | .string s => if wordSize ≤ s.length then none else some s
  | .int x => some (printWord (convInt.print x))
  | .uint x => some (printWord (convUint.print x))
  | .int64 x => some (printWord (convInt64.print x))
  | .uint64 x => some (printWord (convUint64.print x))
  | .float text => some (printWord text)

/-- Source: `ul_conf.cpp` `addconf`. -/
def addconf (d : ConfData) (name : Bytes) (v : ConfValue) : ℤ × ConfData :=
  if wordSize ≤ name.length then (-1, d)
  else if d.size ≤ d.num then (-2, d)
  else if (firstIndex d name).isSome then (0, d)
  else
    match v.text? with
    | none => (-3, { d with item := Function.update d.item d.num { d.item d.num with name := name } })
    | some text => (1, { d with num := d.num + 1, item := Function.update d.item d.num ⟨name, text⟩ })

/-- Source: `ul_conf.cpp` `ul_modifyconfstr`, and with a value that is no string its copies. -/
def modifyconf (d : ConfData) (name : Bytes) (v : ConfValue) : ℤ × ConfData :=
  match v.text? with
  | none => (-3, d)
  | some text => modifyFirst d name text

/-- Read a number. Source: `ul_conf.cpp` `ul_getconfint` and its copies; no number is the return value
`0`. -/
def getconf {α : Type} (c : Conv α) (d : ConfData) (name : Bytes) : Option α :=
  let r := ulGetconfnstr d name wordSize
  if r.1 = 0 then none
  else if r.2 = [48] then some c.zero
  else
    match r.2 with
    | 48 :: 120 :: pstr => c.scanHex pstr
    | 48 :: pstr => c.scanOct pstr
    | tstr => c.scan tstr

/-- Source: `ul_conf.cpp` `ul_getconfint`. -/
def ulGetconfint : ConfData → Bytes → Option Int32 := getconf convInt

/-- Source: `ul_conf.cpp` `ul_modifyconfint`. -/
def ulModifyconfint (d : ConfData) (name : Bytes) (x : Int32) : ℤ × ConfData :=
  modifyconf d name (.int x)

/-- Source: `ul_conf.cpp` `ul_addconfint`. -/
def ulAddconfint (d : ConfData) (name : Bytes) (x : Int32) : ℤ × ConfData := addconf d name (.int x)

/-- Source: `ul_conf.cpp` `ul_getconfuint`. -/
def ulGetconfuint : ConfData → Bytes → Option UInt32 := getconf convUint

/-- Source: `ul_conf.cpp` `ul_modifyconfuint`. -/
def ulModifyconfuint (d : ConfData) (name : Bytes) (x : UInt32) : ℤ × ConfData :=
  modifyconf d name (.uint x)

/-- Source: `ul_conf.cpp` `ul_addconfuint`. -/
def ulAddconfuint (d : ConfData) (name : Bytes) (x : UInt32) : ℤ × ConfData := addconf d name (.uint x)

/-- Source: `ul_conf.cpp` `ul_getconfint64`. -/
def ulGetconfint64 : ConfData → Bytes → Option Int64 := getconf convInt64

/-- Source: `ul_conf.cpp` `ul_modifyconfint64`. -/
def ulModifyconfint64 (d : ConfData) (name : Bytes) (x : Int64) : ℤ × ConfData :=
  modifyconf d name (.int64 x)

/-- Source: `ul_conf.cpp` `ul_addconfint64`. -/
def ulAddconfint64 (d : ConfData) (name : Bytes) (x : Int64) : ℤ × ConfData :=
  addconf d name (.int64 x)

/-- Source: `ul_conf.cpp` `ul_getconfuint64`. -/
def ulGetconfuint64 : ConfData → Bytes → Option UInt64 := getconf convUint64

/-- Source: `ul_conf.cpp` `ul_modifyconfuint64`. -/
def ulModifyconfuint64 (d : ConfData) (name : Bytes) (x : UInt64) : ℤ × ConfData :=
  modifyconf d name (.uint64 x)

/-- Source: `ul_conf.cpp` `ul_addconfuint64`. -/
def ulAddconfuint64 (d : ConfData) (name : Bytes) (x : UInt64) : ℤ × ConfData :=
  addconf d name (.uint64 x)

/-! ## The conversions do their part -/

/-- A number is printed as a word of digits and signs that fits an item; it is `0`, or does not begin
with that digit and is read as the same number. -/
structure Conv.Faithful {α : Type} (c : Conv α) : Prop where
  length_lt : ∀ x, (c.print x).length < wordSize
  bytes : ∀ x, ∀ b ∈ c.print x, b = 45 ∨ isDigit b = true
  scan : ∀ x, c.print x = [48] ∧ x = c.zero ∨
    (c.print x).head? ≠ some 48 ∧ c.scan (c.print x) = some x

theorem bytes_decInt {z : ℤ} {b : UInt8} (h : b ∈ decInt z) : b = 45 ∨ isDigit b = true := by
  unfold decInt at h
  split_ifs at h
  · rcases List.mem_cons.mp h with rfl | hb
    · exact Or.inl rfl
    · exact Or.inr (isDigit_of_mem_dec hb)
  · exact Or.inr (isDigit_of_mem_dec h)

theorem length_decInt_le {z : ℤ} {k : ℕ} (h : z.natAbs < 10 ^ k) (hk : 0 < k) :
    (decInt z).length ≤ k + 1 := by
  have hdec := length_dec_le h hk
  unfold decInt
  split_ifs
  · rw [List.length_cons]
    omega
  · omega

theorem head_decInt {z : ℤ} (h : z ≠ 0) : (decInt z).head? ≠ some 48 := by
  unfold decInt
  split_ifs
  · exact fun hhead => absurd (Option.some.inj hhead) (by decide)
  · exact head_dec (by omega)

/-- A conversion of a signed number. -/
theorem faithful_of_int {α : Type} {c : Conv α} {toInt : α → ℤ}
    (hprint : ∀ x, c.print x = decInt (toInt x)) (hrange : ∀ x, (toInt x).natAbs < 10 ^ 20)
    (hzero : ∀ x, toInt x = 0 → x = c.zero) (hscan : ∀ x, c.scan (decInt (toInt x)) = some x) :
    c.Faithful where
  length_lt x := by
    have hlen := length_decInt_le (hrange x) (by decide)
    rw [hprint]
    exact hlen.trans_lt (by decide)
  bytes x b hb := by
    rw [hprint] at hb
    exact bytes_decInt hb
  scan x := by
    rw [hprint]
    by_cases h : toInt x = 0
    · refine Or.inl ⟨?_, hzero x h⟩
      rw [h]
      rfl
    · exact Or.inr ⟨head_decInt h, hscan x⟩

theorem faithful_int : convInt.Faithful := by
  refine @faithful_of_int _ _ Int32.toInt (fun x => rfl) (fun x => ?_) (fun x h => ?_) fun x => ?_
  · have h₁ := x.le_toInt
    have h₂ := x.toInt_lt
    omega
  · exact Int32.toInt_inj.mp (h.trans (by decide))
  · show (scanDec (decInt x.toInt)).map toInt32 = some x
    rw [scanDec_decInt, Option.map_some, toInt32_toInt]

theorem faithful_int64 : convInt64.Faithful := by
  refine @faithful_of_int _ _ Int64.toInt (fun x => rfl) (fun x => ?_) (fun x h => ?_) fun x => ?_
  · have h₁ := x.le_toInt
    have h₂ := x.toInt_lt
    omega
  · exact Int64.toInt_inj.mp (h.trans (by decide))
  · show (scanDec (decInt x.toInt)).map toLong = some x
    rw [scanDec_decInt, Option.map_some, toLong_toInt]

theorem faithful_uint64 : convUint64.Faithful := by
  refine @faithful_of_int _ _ (fun x => (x.toNat : ℤ)) (fun x => (decInt_natCast _).symm)
    (fun x => ?_) (fun x h => ?_) fun x => ?_
  · have hlt := x.toNat_lt
    omega
  · exact UInt64.toNat_inj.mp (Int.natCast_eq_zero.mp h)
  · show (scanDec (decInt x.toNat)).map toULong = some x
    rw [scanDec_decInt, Option.map_some, toULong_toNat]

theorem faithful_uint : convUint.Faithful := by
  refine @faithful_of_int _ _ (fun x => (x.toNat : ℤ)) (fun x => (decInt_natCast _).symm)
    (fun x => ?_) (fun x h => ?_) fun x => ?_
  · have hlt := x.toNat_lt
    omega
  · exact UInt32.toNat_inj.mp (Int.natCast_eq_zero.mp h)
  · show (scanDec (decInt x.toNat)).map (fun v => (toULong v).toUInt32) = some x
    have hwide := toULong_toNat x.toUInt64
    rw [UInt32.toNat_toUInt64] at hwide
    rw [scanDec_decInt, Option.map_some, hwide, UInt32.toUInt32_toUInt64]

/-! ## The value of a name -/

/-- A lookup finds the first item with the name. -/
theorem firstValue_items (d : ConfData) (name : Bytes) :
    firstValue d.items name = (firstIndex d name).map fun i => (d.item i).value := by
  unfold firstValue firstIndex ConfData.items
  rw [List.find?_map, Option.map_map]
  rfl

theorem firstIndex_eq_none_iff (d : ConfData) (name : Bytes) :
    firstIndex d name = none ↔ ∀ it ∈ d.items, it.name ≠ name := by
  unfold firstIndex ConfData.items
  rw [List.find?_eq_none, List.forall_mem_map]
  simp

theorem name_of_firstIndex {d : ConfData} {name : Bytes} {i : ℕ} (h : firstIndex d name = some i) :
    (d.item i).name = name := by
  unfold firstIndex at h
  have hfound := List.find?_some h
  exact beq_iff_eq.mp hfound

/-- What `addconf` does to the items: nothing, or one is put behind them. -/
theorem addconf_cases (d : ConfData) (name : Bytes) (v : ConfValue) :
    ((addconf d name v).2.num = d.num ∧ (addconf d name v).2.size = d.size ∧
      (addconf d name v).2.items = d.items) ∨
    ∃ text, v.text? = some text ∧ d.num < d.size ∧ (addconf d name v).2.num = d.num + 1 ∧
      (addconf d name v).2.size = d.size ∧ (addconf d name v).2.items = d.items ++ [⟨name, text⟩] := by
  unfold addconf
  split_ifs with hlong hfull hthere
  · exact Or.inl ⟨rfl, rfl, rfl⟩
  · exact Or.inl ⟨rfl, rfl, rfl⟩
  · exact Or.inl ⟨rfl, rfl, rfl⟩
  · cases htext : v.text? with
    | none =>
        refine Or.inl ⟨rfl, rfl, ?_⟩
        dsimp only
        rw [← poke_singleton]
        exact items_beyond d _
    | some text =>
        refine Or.inr ⟨text, rfl, Nat.lt_of_not_le hfull, rfl, rfl, ?_⟩
        dsimp only
        rw [← poke_singleton]
        exact items_extend d [⟨name, text⟩]

/-- A name that is new and fits is added if there is room. -/
theorem addconf_new {d : ConfData} {name text : Bytes} {v : ConfValue}
    (hnew : ∀ it ∈ d.items, it.name ≠ name) (hname : name.length < wordSize) (hroom : d.num < d.size)
    (htext : v.text? = some text) :
    (addconf d name v).1 = 1 ∧ (addconf d name v).2.num ≤ (addconf d name v).2.size ∧
      firstValue (addconf d name v).2.items name = some text := by
  have hindex := (firstIndex_eq_none_iff d name).mpr hnew
  have hadd : addconf d name v = (1, { d with
      num := d.num + 1
      item := Function.update d.item d.num ⟨name, text⟩ }) := by
    unfold addconf
    rw [if_neg (Nat.not_le.mpr hname), if_neg (Nat.not_le.mpr hroom), hindex, htext]
    rfl
  have hitems : (addconf d name v).2.items = d.items ++ [⟨name, text⟩] := by
    rw [hadd, ← poke_singleton]
    exact items_extend d [⟨name, text⟩]
  rw [hitems, firstValue_append, firstValue_items, hindex, hadd]
  exact ⟨rfl, hroom, by simp [firstValue]⟩

/-- A name that is too long is not added, nor is any name to a full table. -/
theorem addconf_refused {d : ConfData} {name : Bytes} {v : ConfValue}
    (h : wordSize ≤ name.length ∨ d.size ≤ d.num) : (addconf d name v).1 < 0 ∧ (addconf d name v).2 = d := by
  unfold addconf
  by_cases hlong : wordSize ≤ name.length
  · rw [if_pos hlong]
    exact ⟨(by decide : (-1 : ℤ) < 0), rfl⟩
  · rw [if_neg hlong, if_pos (h.resolve_left hlong)]
    exact ⟨(by decide : (-2 : ℤ) < 0), rfl⟩

/-- What `modifyFirst` does: it keeps the names and sets the value of the first item with one. -/
theorem modifyFirst_spec (d : ConfData) (name value : Bytes) :
    (modifyFirst d name value).2.num = d.num ∧ (modifyFirst d name value).2.size = d.size ∧
      ∀ n, firstValue (modifyFirst d name value).2.items n =
        if n = name then (firstValue d.items n).map fun _ => value else firstValue d.items n := by
  unfold modifyFirst
  cases hindex : firstIndex d name with
  | none =>
      refine ⟨rfl, rfl, fun n => ?_⟩
      split_ifs with hn
      · rw [hn, firstValue_items, hindex]
        rfl
      · rfl
  | some i =>
      refine ⟨rfl, rfl, fun n => ?_⟩
      have hnames : ∀ j, (Function.update d.item i { d.item i with value := value } j).name =
          (d.item j).name := by
        intro j
        by_cases hj : j = i
        · rw [hj, Function.update_self]
        · rw [Function.update_of_ne hj]
      have hsame : firstIndex { d with
          item := Function.update d.item i { d.item i with value := value } } n = firstIndex d n := by
        unfold firstIndex
        simp only [hnames]
      have hname := name_of_firstIndex hindex
      rw [firstValue_items, firstValue_items, hsame]
      dsimp only
      split_ifs with hn
      · rw [hn, hindex, Option.map_some, Function.update_self, Option.map_some, Option.map_some]
      · cases hfirst : firstIndex d n with
        | none => rfl
        | some j =>
            have hne : j ≠ i := by
              rintro rfl
              exact hn ((name_of_firstIndex hfirst).symm.trans hname)
            rw [Option.map_some, Option.map_some, Function.update_of_ne hne]

/-- A name that is in the table is modified. -/
theorem modifyconf_present {d : ConfData} {name text : Bytes} {v : ConfValue}
    (hthere : ∃ it ∈ d.items, it.name = name) (hsize : d.num ≤ d.size) (htext : v.text? = some text) :
    (modifyconf d name v).1 = 1 ∧ (modifyconf d name v).2.num ≤ (modifyconf d name v).2.size ∧
      firstValue (modifyconf d name v).2.items name = some text := by
  have hmod : modifyconf d name v = modifyFirst d name text := by
    unfold modifyconf
    rw [htext]
  obtain ⟨hnum, hsame, hvalue⟩ := modifyFirst_spec d name text
  rw [hmod, hnum, hsame, hvalue, if_pos rfl, firstValue_items]
  cases hindex : firstIndex d name with
  | none =>
      obtain ⟨it, hit, hname⟩ := hthere
      exact absurd hname ((firstIndex_eq_none_iff d name).mp hindex it hit)
  | some i =>
      refine ⟨?_, hsize, rfl⟩
      unfold modifyFirst
      rw [hindex]

/-! ## Other names -/

/-- A call that changes the table. -/
inductive ConfCall
  | add (name : Bytes) (v : ConfValue)
  | modify (name : Bytes) (v : ConfValue)

/-- The name that a call is about. -/
def ConfCall.name : ConfCall → Bytes
  | .add name _ => name
  | .modify name _ => name

/-- The table after a call. -/
def ConfData.call (d : ConfData) : ConfCall → ConfData
  | .add name v => (addconf d name v).2
  | .modify name v => (modifyconf d name v).2

/-- A call keeps the value of every other name, and does not make the table too large. -/
theorem firstValue_call (d : ConfData) (c : ConfCall) :
    (d.num ≤ d.size → (d.call c).num ≤ (d.call c).size) ∧
      ∀ n, c.name ≠ n → firstValue (d.call c).items n = firstValue d.items n := by
  cases c with
  | add name v =>
      unfold ConfData.call
      dsimp only
      rcases addconf_cases d name v with ⟨hnum, hsize, hitems⟩ |
        ⟨text, -, hroom, hnum, hsize, hitems⟩
      · rw [hnum, hsize, hitems]
        exact ⟨id, fun n _ => rfl⟩
      · rw [hnum, hsize, hitems]
        refine ⟨fun _ => hroom, fun n hn => ?_⟩
        have hother : firstValue [⟨name, text⟩] n = none := by
          unfold firstValue
          rw [List.find?_cons_of_neg (by simpa [ConfCall.name] using hn)]
          rfl
        rw [firstValue_append, hother, Option.or_none]
  | modify name v =>
      unfold ConfData.call modifyconf
      dsimp only
      cases v.text? with
      | none => exact ⟨id, fun n _ => rfl⟩
      | some text =>
          obtain ⟨hnum, hsize, hvalue⟩ := modifyFirst_spec d name text
          dsimp only
          rw [hnum, hsize]
          exact ⟨id, fun n hn => (hvalue n).trans (if_neg (Ne.symm hn))⟩

/-- **Calls for other names** keep the value of a name. -/
theorem firstValue_calls {d : ConfData} {n : Bytes} (calls : List ConfCall) (hsize : d.num ≤ d.size)
    (hother : ∀ c ∈ calls, c.name ≠ n) :
    (calls.foldl ConfData.call d).num ≤ (calls.foldl ConfData.call d).size ∧
      firstValue (calls.foldl ConfData.call d).items n = firstValue d.items n := by
  induction calls generalizing d with
  | nil => exact ⟨hsize, rfl⟩
  | cons c calls ih =>
      rw [List.forall_mem_cons] at hother
      obtain ⟨hroom, hvalue⟩ := firstValue_call d c
      rw [List.foldl_cons, ← hvalue n hother.1]
      exact ih (hroom hsize) hother.2

/-! ## Reading the number back -/

/-- A number that is the value of a name is read. -/
theorem getconf_of_firstValue {α : Type} {c : Conv α} (hc : c.Faithful) {d : ConfData} {name : Bytes}
    {x : α} (h : firstValue d.items name = some (c.print x)) : getconf c d name = some x := by
  have hfit : (c.print x).take (wordSize - 1) = c.print x :=
    List.take_of_length_le (Nat.le_sub_one_of_lt (hc.length_lt x))
  have hone : (1 : ℤ) ≠ 0 := by omega
  unfold getconf ulGetconfnstr
  rw [h, answer, hfit]
  dsimp only
  rw [if_neg hone]
  rcases hc.scan x with ⟨hprint, hx⟩ | ⟨hhead, hscan⟩
  · rw [if_pos hprint, hx]
  · have hzero : c.print x ≠ [48] := fun heq => hhead (by rw [heq]; rfl)
    rw [if_neg hzero]
    split
    · next heq => exact absurd (by rw [heq]; rfl) hhead
    · next heq => exact absurd (by rw [heq]; rfl) hhead
    · exact hscan

/-- An item that is written as one line and whose name is found again: the name is one word without `:`
and `#`, the value has no newline, and the line fits the buffer of the reader. -/
structure Storable (it : ConfItem) : Prop where
  name_ne : it.name ≠ []
  name_bytes : ∀ b ∈ it.name, isSpace b = false ∧ b ≠ 58 ∧ b ≠ 35 ∧ b ≠ 0
  name_lt : it.name.length < wordSize
  value_bytes : ∀ b ∈ it.value, b ≠ 10 ∧ b ≠ 0
  value_lt : it.value.length < wordSize
  line_lt : (lineText it).length < 4094

instance (it : ConfItem) : Decidable (Storable it) :=
  haveI := List.decidableBAll (fun b => isSpace b = false ∧ b ≠ 58 ∧ b ≠ 35 ∧ b ≠ 0) it.name
  haveI := List.decidableBAll (fun b : UInt8 => b ≠ 10 ∧ b ≠ 0) it.value
  decidable_of_iff (it.name ≠ [] ∧ (∀ b ∈ it.name, isSpace b = false ∧ b ≠ 58 ∧ b ≠ 35 ∧ b ≠ 0) ∧
      it.name.length < wordSize ∧ (∀ b ∈ it.value, b ≠ 10 ∧ b ≠ 0) ∧ it.value.length < wordSize ∧
      (lineText it).length < 4094)
    ⟨fun ⟨h₁, h₂, h₃, h₄, h₅, h₆⟩ => ⟨h₁, h₂, h₃, h₄, h₅, h₆⟩,
      fun h => ⟨h.name_ne, h.name_bytes, h.name_lt, h.value_bytes, h.value_lt, h.line_lt⟩⟩

theorem Storable.scannable {it : ConfItem} (h : Storable it) : Scannable it where
  name_ne := h.name_ne
  name_bytes := by
    intro b hb
    obtain ⟨hspace, hcolon, -, hnul⟩ := h.name_bytes b hb
    rw [isNameByte_iff]
    refine ⟨?_, ?_, hcolon, hnul⟩
    · rw [Bool.eq_false_iff]
      intro hblank
      have hcases : b = 32 ∨ b = 9 := by simpa [isBlank] using hblank
      rcases hcases with rfl | rfl <;> exact absurd hspace (by decide)
    · rw [Bool.eq_false_iff]
      intro heol
      have hcases : b = 13 ∨ b = 10 := by simpa [isEol] using heol
      rcases hcases with rfl | rfl <;> exact absurd hspace (by decide)
  name_start := fun hhead => (h.name_bytes 35 (List.mem_of_mem_head? hhead)).2.2.1 rfl
  name_lt := h.name_lt
  value_bytes := h.value_bytes
  value_lt := h.value_lt
  line_lt := h.line_lt

theorem firstValue_map_readItem (its : List ConfItem) (name : Bytes) :
    firstValue (its.map readItem) name = (firstValue its name).map readBack := by
  unfold firstValue
  rw [List.find?_map, Option.map_map, Option.map_map]
  rfl

/-- A printed number is read back from a line. -/
theorem readBack_print {α : Type} {c : Conv α} (hc : c.Faithful) (x : α) :
    readBack (c.print x) = c.print x := by
  have hbyte : ∀ b ∈ c.print x, isBlank b = false ∧ isEol b = false ∧ b ≠ 0 := by
    intro b hb
    rcases hc.bytes x b hb with rfl | hdigit
    · decide
    · unfold isDigit at hdigit
      unfold isBlank isEol
      grind
  refine readBack_eq (fun b hb => (hbyte b hb).2) (fun b hb => ?_) fun b hb => ?_
  · exact (hbyte b (List.mem_of_mem_head? hb)).1
  · exact (hbyte b (List.mem_of_mem_getLast? hb)).1

/-- **A table that is written and read** gives the number of a name. -/
theorem getconf_written {α : Type} {c : Conv α} (hc : c.Faithful) (files : Files)
    (workPath fname : Bytes) {d e : ConfData} {name : Bytes} {x : α}
    (hwritable : files.writable (totalname workPath fname) = true) (hsize : d.num ≤ d.size)
    (hitems : ∀ it ∈ d.items, Storable it) (hroom : d.num ≤ e.size)
    (h : firstValue d.items name = some (c.print x)) :
    getconf c (ulReadconf (ulWriteconf files workPath fname d).2 workPath fname e).2 name = some x := by
  have hnum : 1 ≤ d.num := by
    rcases Nat.eq_zero_or_pos d.num with hzero | hpos
    · rw [ConfData.items, hzero] at h
      exact absurd h.symm (Option.some_ne_none _)
    · exact hpos
  have hall : d.items.filter oneWord = d.items := List.filter_eq_self.mpr fun it hit =>
    oneWord_of_isSpace (hitems it hit).name_ne fun b hb => ((hitems it hit).name_bytes b hb).1
  obtain ⟨-, -, hread⟩ := ulReadconf_ulWriteconf files workPath fname d e hwritable hnum hsize
    (fun it hit => (hitems it hit).scannable) hroom
  apply getconf_of_firstValue hc
  rw [hread, hall, firstValue_map_readItem, h, Option.map_some, readBack_print hc]

/-- The number `x` is read for the name `n`, whatever calls are made for other names, and from a file
that the table is then written to. -/
def Kept {α : Type} (get : ConfData → Bytes → Option α) (d : ConfData) (n : Bytes) (x : α) : Prop :=
  ∀ calls : List ConfCall, (∀ c ∈ calls, c.name ≠ n) →
    get (calls.foldl ConfData.call d) n = some x ∧
    ∀ (files : Files) (workPath fname : Bytes) (e : ConfData),
      files.writable (totalname workPath fname) = true →
      (∀ it ∈ (calls.foldl ConfData.call d).items, Storable it) →
      (calls.foldl ConfData.call d).num ≤ e.size →
      get (ulReadconf (ulWriteconf files workPath fname (calls.foldl ConfData.call d)).2 workPath fname
        e).2 n = some x

/-- Numbers that are added under a new name, or stored under one that is there, are kept; a name that is too long, or
a table without a free slot, is an error with which nothing is added. -/
def KeepsValue {α : Type} (add modify : ConfData → Bytes → α → ℤ × ConfData)
    (get : ConfData → Bytes → Option α) : Prop :=
  ∀ (x : α) (d : ConfData) (n : Bytes), d.num ≤ d.size →
    ((∀ it ∈ d.items, it.name ≠ n) → n.length < wordSize → d.num < d.size →
      (add d n x).1 = 1 ∧ Kept get (add d n x).2 n x) ∧
    (wordSize ≤ n.length ∨ d.size ≤ d.num → (add d n x).1 < 0 ∧ (add d n x).2 = d) ∧
    ((∃ it ∈ d.items, it.name = n) → (modify d n x).1 = 1 ∧ Kept get (modify d n x).2 n x)

/-- A name whose value is the number keeps it. -/
theorem kept_of_firstValue {α : Type} {c : Conv α} (hc : c.Faithful) {d : ConfData} {n : Bytes} {x : α}
    (hsize : d.num ≤ d.size) (h : firstValue d.items n = some (c.print x)) :
    Kept (getconf c) d n x := by
  intro calls hother
  obtain ⟨hsize', hvalue⟩ := firstValue_calls calls hsize hother
  rw [h] at hvalue
  exact ⟨getconf_of_firstValue hc hvalue, fun files workPath fname e hwritable hitems hroom =>
    getconf_written hc files workPath fname hwritable hsize' hitems hroom hvalue⟩

/-- The functions of one type. -/
theorem keepsValue_of_faithful {α : Type} {c : Conv α} (hc : c.Faithful) {value : α → ConfValue}
    (htext : ∀ x, (value x).text? = some (printWord (c.print x))) :
    KeepsValue (fun d n x => addconf d n (value x)) (fun d n x => modifyconf d n (value x))
      (getconf c) := by
  intro x d n hsize
  have hprint : printWord (c.print x) = c.print x :=
    List.take_of_length_le (Nat.le_sub_one_of_lt (hc.length_lt x))
  have hvalue := htext x
  rw [hprint] at hvalue
  refine ⟨?_, addconf_refused, ?_⟩
  · intro hnew hname hroom
    obtain ⟨hret, hsize', hfirst⟩ := addconf_new hnew hname hroom hvalue
    exact ⟨hret, kept_of_firstValue hc hsize' hfirst⟩
  · intro hthere
    obtain ⟨hret, hsize', hfirst⟩ := modifyconf_present hthere hsize hvalue
    exact ⟨hret, kept_of_firstValue hc hsize' hfirst⟩

/-- **Numbers are kept**, of all four types. -/
theorem conf_values_kept :
    KeepsValue ulAddconfint ulModifyconfint ulGetconfint ∧
      KeepsValue ulAddconfuint ulModifyconfuint ulGetconfuint ∧
      KeepsValue ulAddconfint64 ulModifyconfint64 ulGetconfint64 ∧
      KeepsValue ulAddconfuint64 ulModifyconfuint64 ulGetconfuint64 :=
  ⟨keepsValue_of_faithful faithful_int fun _ => rfl, keepsValue_of_faithful faithful_uint fun _ => rfl,
    keepsValue_of_faithful faithful_int64 fun _ => rfl,
    keepsValue_of_faithful faithful_uint64 fun _ => rfl⟩

/-- A table with the item `a` and room for others. -/
def roomy : ConfData := ⟨1, 1024, fun _ => ⟨ascii "a", ascii "1"⟩⟩

/-- A negative number is added to a table, and read from it and from its file. -/
theorem conf_values_kept_negative : (ulAddconfint roomy (ascii "n") (-5)).1 = 1 ∧
    ulGetconfint (ulAddconfint roomy (ascii "n") (-5)).2 (ascii "n") = some (-5) ∧
    ulGetconfint (ulReadconf (ulWriteconf emptyFiles (ascii ".") (ascii "f")
      (ulAddconfint roomy (ascii "n") (-5)).2).2 (ascii ".") (ascii "f") roomy).2 (ascii "n") = some (-5) := by
  obtain ⟨hret, hkept⟩ := (conf_values_kept.1 (-5) roomy (ascii "n") (by decide)).1 (by decide +kernel) (by decide)
    (by decide)
  obtain ⟨hget, hfile⟩ := hkept [] (fun _ h => absurd h List.not_mem_nil)
  exact ⟨hret, hget, hfile emptyFiles (ascii ".") (ascii "f") roomy rfl (by decide +kernel) (by decide)⟩

/-- A table of the item `a`, in whose value a line with another item stands. -/
def injecting : ConfData := ⟨1, 1024, fun _ => ⟨ascii "a", ascii "1" ++ 10 :: ascii "n:5"⟩⟩

/-- A newline in the value of another name hides a number in the file. -/
theorem conf_values_injected : ¬ ∀ (files : Files) (workPath fname : Bytes) (d e : ConfData) (n : Bytes)
    (x : Int32), (∀ it ∈ d.items, it.name ≠ n) →
      files.writable (totalname workPath fname) = true →
      (∀ it ∈ (ulAddconfint d n x).2.items, it.name ≠ [] ∧
        ∀ b ∈ it.name, isSpace b = false ∧ b ≠ 58 ∧ b ≠ 35 ∧ b ≠ 0) →
      (ulAddconfint d n x).2.num < (ulAddconfint d n x).2.size →
      (ulAddconfint d n x).2.num < e.size →
      ulGetconfint (ulReadconf (ulWriteconf files workPath fname (ulAddconfint d n x).2).2 workPath
        fname e).2 n = some x := by
  intro hclaim
  have hread := hclaim emptyFiles (ascii ".") (ascii "f") injecting injecting (ascii "n") 7
    (by decide +kernel) rfl (by decide +kernel) (by decide +kernel) (by decide +kernel)
  revert hread
  decide +kernel

end Asenal.Conf
