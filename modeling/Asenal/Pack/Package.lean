import Asenal.Lib.CString

/-!
# Packages

The package structure of the library and the functions that fill it. A package has slots for up
to 200 names and values, and a body in memory of the caller. A slot holds a C string, given by
its bytes without the terminator; the body is whatever the memory at `buf` holds.

`pairs` and `body` are what a package says; `WellFormed` is what the fixed sizes of the
structure and its documented use guarantee. `putAll_admitted` — what `ul_pack_putvalue` admits
stays free of the two separators of the head.
-/

namespace Asenal.Pack

open Asenal.Lib.Text Asenal.Lib.Memory Asenal.Lib.CString

/-! ## Sizes and separators -/

/-- `MAX_PACK_ITEM_NUM`. Source: `ul_pack.h`. -/
def maxPackItemNum : ℕ := 200

/-- `MAX_ITEM_SIZE`. Source: `ul_pack.h`. -/
def maxItemSize : ℕ := 2048

/-- `SIZE_NUM`. Source: `ul_pack.h`. -/
def sizeNum : ℕ := 20

/-- `MAX_HEAD_SIZE`. Source: `ul_pack.h`. -/
def maxHeadSize : ℕ := 26000

/-- The end of a line of the head. -/
abbrev crlf : Bytes := [13, 10]

/-- What separates a name from its value: blank, colon, blank. -/
abbrev sep : Bytes := [32, 58, 32]

/-! ## The structure -/

/-- A package. Source: `ul_pack.h` `ul_package_t`. -/
structure UlPackage where
  /-- `name[MAX_PACK_ITEM_NUM][MAX_ITEM_SIZE]`. -/
  name : ℕ → Bytes
  /-- `value[MAX_PACK_ITEM_NUM][MAX_ITEM_SIZE]`. -/
  value : ℕ → Bytes
  /-- How many slots are in use. -/
  pairnum : ℕ
  /-- The size of the body. -/
  bufsize : Int32
  /-- The memory of the body; `none` is `NULL`. -/
  buf : Option (Mem UInt8)

/-- The first `n` slots. -/
def slots (name value : ℕ → Bytes) (n : ℕ) : List (Bytes × Bytes) :=
  (List.range n).map fun i => (name i, value i)

/-- The name/value pairs of a package, in order. -/
def UlPackage.pairs (p : UlPackage) : List (Bytes × Bytes) := slots p.name p.value p.pairnum

/-- The first bytes of the memory of the body. -/
def UlPackage.block (p : UlPackage) (n : ℕ) : Bytes :=
  match p.buf with
  | none => []
  | some b => peek b 0 n

/-- The body of a package. -/
def UlPackage.body (p : UlPackage) : Bytes := p.block p.bufsize.toNatClampNeg

/-- The text of a slot: a C string that fits with its terminator. -/
structure IsItem (s : Bytes) : Prop where
  noNul : 0 ∉ s
  length_lt : s.length < maxItemSize

/-- A package as its users build it: slots in use hold C strings of the slot's size, and there is
a body of `bufsize` bytes. -/
structure UlPackage.WellFormed (p : UlPackage) : Prop where
  pairnum_le : p.pairnum ≤ maxPackItemNum
  items : ∀ x ∈ p.pairs, IsItem x.1 ∧ IsItem x.2
  bufsize_nonneg : 0 ≤ p.bufsize
  bufsize_eq_zero : p.buf = none → p.bufsize = 0

/-- The slots in use and one more. -/
theorem slots_succ (name value : ℕ → Bytes) (n : ℕ) :
    slots name value (n + 1) = slots name value n ++ [(name n, value n)] := by
  simp [slots, List.range_succ]

/-- The slots in use depend on nothing else. -/
theorem slots_congr {name value name' value' : ℕ → Bytes} {n : ℕ}
    (h : ∀ i < n, name i = name' i ∧ value i = value' i) :
    slots name value n = slots name' value' n := by
  apply List.map_congr_left
  intro i hi
  obtain ⟨hname, hvalue⟩ := h i (List.mem_range.mp hi)
  rw [hname, hvalue]

/-- A package has `pairnum` pairs. -/
@[simp] theorem length_slots (name value : ℕ → Bytes) (n : ℕ) :
    (slots name value n).length = n := by
  simp [slots]

/-- A pair of a package is in one of its slots. -/
theorem mem_slots {name value : ℕ → Bytes} {n : ℕ} {x : Bytes × Bytes} :
    x ∈ slots name value n ↔ ∃ i < n, (name i, value i) = x := by
  simp [slots]

/-- The size of the body of a well-formed package is not negative. -/
theorem UlPackage.WellFormed.toInt_bufsize_nonneg {p : UlPackage} (h : p.WellFormed) :
    0 ≤ p.bufsize.toInt := by
  simpa [Int32.le_iff_toInt_le] using h.bufsize_nonneg

/-- The body of a well-formed package has `bufsize` bytes. -/
theorem UlPackage.WellFormed.length_body {p : UlPackage} (h : p.WellFormed) :
    p.body.length = p.bufsize.toNatClampNeg := by
  unfold UlPackage.body UlPackage.block
  cases hb : p.buf with
  | none => rw [h.bufsize_eq_zero hb]; rfl
  | some b => simp

/-- The same in integers. -/
theorem UlPackage.WellFormed.cast_length_body {p : UlPackage} (h : p.WellFormed) :
    (p.body.length : ℤ) = p.bufsize.toInt := by
  rw [h.length_body]
  exact Int.toNat_of_nonneg h.toInt_bufsize_nonneg

/-! ## Filling a package -/

/-- An empty package. Source: `ul_pack.cpp` `ul_pack_init` (the memory is cleared). -/
def ulPackInit : UlPackage := ⟨fun _ => [], fun _ => [], 0, 0, none⟩

/-- Source: `ul_pack.cpp` `ul_pack_putbuf`. -/
def ulPackPutbuf (p : UlPackage) (buffer : Option (Mem UInt8)) (size : Int32) : UlPackage :=
  { p with buf := buffer, bufsize := size }

/-- `snprintf(slot, sizeof(slot), "%s", s)`: what a slot holds after it. -/
def printItem (s : Bytes) : Bytes := s.take (maxItemSize - 1)

/-- A text of the slot's size is stored as it is. -/
theorem printItem_of_lt {s : Bytes} (h : s.length < maxItemSize) : printItem s = s :=
  List.take_of_length_le (Nat.le_sub_one_of_lt h)

/-- The slot in use whose name is `pname`. -/
def UlPackage.find (p : UlPackage) (pname : Bytes) : Option ℕ :=
  (List.range p.pairnum).find? fun i => p.name i = pname

/-- Store a value under a name. Source: `ul_pack.cpp` `ul_pack_putvalue`; the arguments are the
bytes at the two pointers. -/
def ulPackPutvalue (p : UlPackage) (pname pvalue : Bytes) : ℤ × UlPackage :=
  let pname := cstr pname
  let pvalue := cstr pvalue
  if maxItemSize ≤ pvalue.length ∨ maxItemSize ≤ pname.length then (-1, p)
  else if (strstr crlf pname).isSome ∨ (strstr sep pname).isSome ∨
      (strstr crlf pvalue).isSome ∨ (strstr sep pvalue).isSome then (-1, p)
  else
    match p.find pname with
    | some i => (1, { p with value := Function.update p.value i (printItem pvalue) })
    | none =>
        if p.pairnum < maxPackItemNum then
          (0, { p with
            name := Function.update p.name p.pairnum (printItem pname)
            value := Function.update p.value p.pairnum (printItem pvalue)
            pairnum := p.pairnum + 1 })
        else (-2, p)

/-- Successive calls of `ul_pack_putvalue`, as long as all of them succeed. -/
def putAll (p : UlPackage) : List (Bytes × Bytes) → Option UlPackage
  | [] => some p
  | (n, v) :: l =>
      let r := ulPackPutvalue p n v
      if r.1 < 0 then none else putAll r.2 l

/-! ## What is admitted -/

/-- A text that `ul_pack_putvalue` admits: it fits into a slot and has no separator. -/
structure Admitted (s : Bytes) : Prop extends IsItem s where
  no_crlf : ¬ crlf <:+: s
  no_sep : ¬ sep <:+: s

/-- All names and values of a package are admitted. -/
structure UlPackage.AllAdmitted (p : UlPackage) : Prop where
  pairnum_le : p.pairnum ≤ maxPackItemNum
  admitted : ∀ x ∈ p.pairs, Admitted x.1 ∧ Admitted x.2

/-- The admission test of `ul_pack_putvalue` is `Admitted`. -/
theorem admitted_cstr_iff (s : Bytes) : Admitted (cstr s) ↔ (cstr s).length < maxItemSize ∧
    ¬ (strstr crlf (cstr s)).isSome ∧ ¬ (strstr sep (cstr s)).isSome := by
  simp only [Option.not_isSome_iff_eq_none, strstr_eq_none_iff]
  constructor
  · intro h
    exact ⟨h.length_lt, h.no_crlf, h.no_sep⟩
  · rintro ⟨hlen, hcrlf, hsep⟩
    exact ⟨⟨not_mem_cstr s, hlen⟩, hcrlf, hsep⟩

/-- What is not admitted is refused. -/
theorem ulPackPutvalue_refused {pname pvalue : Bytes} (p : UlPackage)
    (h : ¬ (Admitted (cstr pname) ∧ Admitted (cstr pvalue))) :
    ulPackPutvalue p pname pvalue = (-1, p) := by
  rw [admitted_cstr_iff, admitted_cstr_iff] at h
  unfold ulPackPutvalue
  dsimp only
  by_cases hlen : maxItemSize ≤ (cstr pvalue).length ∨ maxItemSize ≤ (cstr pname).length
  · rw [if_pos hlen]
  · rw [if_neg hlen, if_pos]
    rw [not_or, not_le, not_le] at hlen
    by_contra hsep
    rw [not_or, not_or, not_or] at hsep
    exact h ⟨⟨hlen.2, hsep.1, hsep.2.1⟩, hlen.1, hsep.2.2⟩

/-- **What is admitted** replaces the value of a name in use, or is stored in the next slot. -/
theorem ulPackPutvalue_admitted_eq {pname pvalue : Bytes} (p : UlPackage)
    (hn : Admitted (cstr pname)) (hv : Admitted (cstr pvalue)) :
    ulPackPutvalue p pname pvalue =
      match p.find (cstr pname) with
      | some i => (1, { p with value := Function.update p.value i (cstr pvalue) })
      | none =>
          if p.pairnum < maxPackItemNum then
            (0, { p with
              name := Function.update p.name p.pairnum (cstr pname)
              value := Function.update p.value p.pairnum (cstr pvalue)
              pairnum := p.pairnum + 1 })
          else (-2, p) := by
  obtain ⟨hn₁, hn₂, hn₃⟩ := (admitted_cstr_iff pname).mp hn
  obtain ⟨hv₁, hv₂, hv₃⟩ := (admitted_cstr_iff pvalue).mp hv
  unfold ulPackPutvalue
  dsimp only
  rw [if_neg (not_or.mpr ⟨Nat.not_le.mpr hv₁, Nat.not_le.mpr hn₁⟩),
    if_neg (not_or.mpr ⟨hn₂, not_or.mpr ⟨hn₃, not_or.mpr ⟨hv₂, hv₃⟩⟩⟩),
    printItem_of_lt hn₁, printItem_of_lt hv₁]

/-- **What one call can do**: it fails and changes nothing, replaces the value of a name in use,
or appends a pair; what it stores is admitted. -/
theorem ulPackPutvalue_cases (p : UlPackage) (pname pvalue : Bytes) :
    ((ulPackPutvalue p pname pvalue).1 < 0 ∧ (ulPackPutvalue p pname pvalue).2 = p) ∨
      (Admitted (cstr pname) ∧ Admitted (cstr pvalue) ∧
        ((∃ i < p.pairnum, p.name i = cstr pname ∧ ulPackPutvalue p pname pvalue =
            (1, { p with value := Function.update p.value i (cstr pvalue) })) ∨
          (p.pairnum < maxPackItemNum ∧ ulPackPutvalue p pname pvalue =
            (0, { p with
              name := Function.update p.name p.pairnum (cstr pname)
              value := Function.update p.value p.pairnum (cstr pvalue)
              pairnum := p.pairnum + 1 })))) := by
  have hneg : (-1 : ℤ) < 0 ∧ (-2 : ℤ) < 0 := by omega
  by_cases hadm : Admitted (cstr pname) ∧ Admitted (cstr pvalue)
  swap
  · rw [ulPackPutvalue_refused p hadm]
    exact Or.inl ⟨hneg.1, rfl⟩
  obtain ⟨hn, hv⟩ := hadm
  rw [ulPackPutvalue_admitted_eq p hn hv]
  cases hfind : p.find (cstr pname) with
  | some i =>
      have hmem := List.mem_range.mp (List.mem_of_find?_eq_some hfind)
      exact Or.inr ⟨hn, hv, Or.inl ⟨i, hmem, by simpa using List.find?_some hfind, rfl⟩⟩
  | none =>
      dsimp only
      split_ifs with hnum
      · exact Or.inr ⟨hn, hv, Or.inr ⟨hnum, rfl⟩⟩
      · exact Or.inl ⟨hneg.2, rfl⟩

/-- A call of `ul_pack_putvalue` keeps all names and values admitted. -/
theorem ulPackPutvalue_admitted {p : UlPackage} (h : p.AllAdmitted) (pname pvalue : Bytes) :
    (ulPackPutvalue p pname pvalue).2.AllAdmitted := by
  rcases ulPackPutvalue_cases p pname pvalue with
    ⟨-, heq⟩ | ⟨hn, hv, ⟨i, -, -, heq⟩ | ⟨hnum, heq⟩⟩
  · rwa [heq]
  · rw [heq]
    refine ⟨h.pairnum_le, ?_⟩
    intro x hx
    obtain ⟨j, hj, rfl⟩ := mem_slots.mp hx
    have hold := h.admitted _ (mem_slots.mpr ⟨j, hj, rfl⟩)
    by_cases hij : j = i
    · subst hij
      exact ⟨hold.1, by simpa using hv⟩
    · exact ⟨hold.1, by simpa [Function.update_of_ne hij] using hold.2⟩
  · rw [heq]
    refine ⟨hnum, ?_⟩
    intro x hx
    obtain ⟨j, hj, rfl⟩ := mem_slots.mp hx
    by_cases hij : j = p.pairnum
    · subst hij
      exact ⟨by simpa using hn, by simpa using hv⟩
    · have hlt : j < p.pairnum := lt_of_le_of_ne (Nat.le_of_lt_succ hj) hij
      simpa [Function.update_of_ne hij] using h.admitted _ (mem_slots.mpr ⟨j, hlt, rfl⟩)

/-- **What is put stays admitted**: after successful calls of `ul_pack_putvalue` on an empty
package all names and values are admitted. -/
theorem putAll_admitted {p q : UlPackage} {l : List (Bytes × Bytes)} (h : p.AllAdmitted)
    (hq : putAll p l = some q) : q.AllAdmitted := by
  induction l generalizing p with
  | nil =>
      cases hq
      exact h
  | cons x l ih =>
      rw [putAll] at hq
      split_ifs at hq
      exact ih (ulPackPutvalue_admitted h _ _) hq

/-- An empty package has nothing that is not admitted. -/
theorem allAdmitted_of_pairnum {p : UlPackage} (h : p.pairnum = 0) : p.AllAdmitted := by
  constructor
  · rw [h]
    exact Nat.zero_le _
  · intro x hx
    rw [UlPackage.pairs, h] at hx
    exact absurd hx List.not_mem_nil

end Asenal.Pack
