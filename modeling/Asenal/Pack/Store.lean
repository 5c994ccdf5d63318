import Asenal.Lib.OrderedMap
import Asenal.Pack.Head

/-!
# A package as a store

The slots of a package under `ul_pack_putvalue`, `ul_pack_delvalue`, `ul_pack_getvalue_ex` and
`ul_pack_cleanhead`. Deleting moves the slots behind the deleted one down and leaves the last one
behind `pairnum`, so what a package says is in its slots in use only; seen that way it is an
insertion-ordered map with at most 200 keys.

* `ulPackDelvalue_pairs` — deleting erases one pair and keeps the others in order.
* `exec_refines` — one operation on a package is the operation on the map.
* `run_refines` — so is a run from an empty package, and what a name holds is what was put last.
-/

namespace Asenal.Pack

open Asenal.Lib.Text Asenal.Lib.Memory Asenal.Lib.CString Asenal.Lib.OrderedMap

/-! ## The operations -/

/-- The value of a name, copied to the memory at `pvalue` of `size` bytes. Source: `ul_pack.cpp`
`ul_pack_getvalue_ex`. -/
def ulPackGetvalueEx (p : UlPackage) (pname : Bytes) (pvalue : Mem UInt8) (size : ℕ) :
    ℤ × Mem UInt8 :=
  let pvalue := poke pvalue 0 [0]
  match p.find (cstr pname) with
  | some i => (1, snprintf pvalue 0 size (p.value i))
  | none => (0, pvalue)

/-- Copy a slot to the one in front of it. Source: `ul_pack.cpp` `ul_pack_delvalue`, the body of
the loop over `j`. -/
def UlPackage.moveDown (p : UlPackage) (j : ℕ) : UlPackage :=
  { p with
    name := Function.update p.name (j - 1) (printItem (p.name j))
    value := Function.update p.value (j - 1) (printItem (p.value j)) }

/-- Delete a name with its value. Source: `ul_pack.cpp` `ul_pack_delvalue`. -/
def ulPackDelvalue (p : UlPackage) (pname : Bytes) : ℤ × UlPackage :=
  match p.find (cstr pname) with
  | none => (-1, p)
  | some i =>
      let p := (List.range' (i + 1) (p.pairnum - (i + 1))).foldl UlPackage.moveDown p
      (0, { p with pairnum := p.pairnum - 1 })

/-- Delete all names. Source: `ul_pack.cpp` `ul_pack_cleanhead`. -/
def ulPackCleanhead (p : UlPackage) : ℤ × UlPackage := (1, { p with pairnum := 0 })

/-! ## Moving slots down -/

/-- The slot that holds, behind the loop over `k` slots, what slot `m` held. -/
def movedFrom (i k m : ℕ) : ℕ := if i ≤ m ∧ m < i + k then m + 1 else m

/-- What the loop of `ul_pack_delvalue` does to slots of the slot's size. -/
theorem foldl_moveDown (p : UlPackage) (i k : ℕ)
    (h : ∀ j < i + 1 + k, (p.name j).length < maxItemSize ∧ (p.value j).length < maxItemSize) :
    (List.range' (i + 1) k).foldl UlPackage.moveDown p =
      { p with name := p.name ∘ movedFrom i k, value := p.value ∘ movedFrom i k } := by
  induction k with
  | zero =>
      have hid : movedFrom i 0 = id := by
        funext m
        exact if_neg (by omega)
      rw [hid]
      rfl
  | succ k ih =>
      have hmoved : movedFrom i k (i + 1 + k) = i + 1 + k := if_neg (by omega)
      have hupdate : ∀ f : ℕ → Bytes,
          Function.update (f ∘ movedFrom i k) (i + k) (f (i + 1 + k)) =
            f ∘ movedFrom i (k + 1) := by
        intro f
        funext m
        rw [Function.update_apply]
        unfold movedFrom
        rw [Function.comp_apply, Function.comp_apply]
        split_ifs <;> first | omega | exact congrArg f (by omega)
      obtain ⟨hn, hv⟩ := h (i + 1 + k) (by omega)
      have hpred : i + 1 + k - 1 = i + k := by omega
      rw [List.range'_1_concat, List.foldl_append, ih fun j hj => h j (by omega),
        List.foldl_cons, List.foldl_nil, UlPackage.moveDown]
      simp only [Function.comp_apply, hmoved, printItem_of_lt hn, printItem_of_lt hv, hpred]
      rw [hupdate, hupdate]

/-- Moving the slots behind slot `i` down erases pair `i`. -/
theorem slots_moved (name value : ℕ → Bytes) {i n : ℕ} (h : i < n) :
    slots (name ∘ movedFrom i (n - (i + 1))) (value ∘ movedFrom i (n - (i + 1))) (n - 1) =
      (slots name value n).eraseIdx i := by
  apply List.ext_getElem
  · rw [List.length_eraseIdx_of_lt (by rwa [length_slots]), length_slots, length_slots]
  · intro m h₁ h₂
    rw [length_slots] at h₁
    have hmoved : movedFrom i (n - (i + 1)) m = if m < i then m else m + 1 := by
      unfold movedFrom
      split_ifs <;> omega
    rw [List.getElem_eraseIdx]
    simp only [slots, List.getElem_map, List.getElem_range, Function.comp_apply, hmoved]
    split_ifs <;> rfl

/-- Replacing the value of a slot replaces the pair. -/
theorem slots_update_value (name value : ℕ → Bytes) {i n : ℕ} (v : Bytes) :
    slots name (Function.update value i v) n = (slots name value n).set i (name i, v) := by
  apply List.ext_getElem
  · rw [List.length_set, length_slots, length_slots]
  · intro m h₁ h₂
    rw [List.getElem_set]
    simp only [slots, List.getElem_map, List.getElem_range, Function.update_apply]
    by_cases hm : i = m
    · subst hm
      rw [if_pos rfl, if_pos rfl]
    · rw [if_neg hm, if_neg (Ne.symm hm)]

/-! ## The slot of a name -/

/-- The slot that is found is the first one with the name. -/
theorem UlPackage.find_eq_some {p : UlPackage} {a : Bytes} {i : ℕ} (h : p.find a = some i) :
    i < p.pairnum ∧ p.name i = a ∧ ∀ j < i, p.name j ≠ a :=
  find?_slot_eq_some (fun _ => decide_eq_true_iff) h

/-- **Deleting erases one pair** and keeps the others in order. -/
theorem ulPackDelvalue_pairs {p : UlPackage} {pname : Bytes} {i : ℕ} (h : p.AllAdmitted)
    (hfind : p.find (cstr pname) = some i) :
    (ulPackDelvalue p pname).1 = 0 ∧
      (ulPackDelvalue p pname).2.pairs = p.pairs.eraseIdx i ∧
      (ulPackDelvalue p pname).2.pairnum = p.pairnum - 1 := by
  obtain ⟨hi, -, -⟩ := p.find_eq_some hfind
  have hsize : ∀ j < i + 1 + (p.pairnum - (i + 1)),
      (p.name j).length < maxItemSize ∧ (p.value j).length < maxItemSize := by
    intro j hj
    obtain ⟨hn, hv⟩ := h.admitted _ (mem_slots.mpr ⟨j, by omega, rfl⟩)
    exact ⟨hn.length_lt, hv.length_lt⟩
  simp only [ulPackDelvalue, hfind, foldl_moveDown p i _ hsize]
  exact ⟨trivial, slots_moved p.name p.value hi, trivial⟩

/-! ## The map -/

/-- A map from names to values. -/
abbrev NameMap := AList fun _ : Bytes => Bytes

/-- An operation: the bytes at its pointers, and the destination of `ul_pack_getvalue_ex`. -/
inductive Op
  | put (pname pvalue : Bytes)
  | del (pname : Bytes)
  | get (pname : Bytes) (pvalue : Mem UInt8) (size : ℕ)
  | clean

/-- The destination has room for every value. -/
def Op.HasRoom : Op → Prop
  | .get _ _ size => maxItemSize ≤ size
  | _ => True

/-- What an operation returns, and the C string at its destination. -/
abbrev Answer := ℤ × Bytes

/-- An operation on a package. -/
def exec (p : UlPackage) : Op → Answer × UlPackage
  | .put pname pvalue =>
      let r := ulPackPutvalue p pname pvalue
      ((r.1, []), r.2)
  | .del pname =>
      let r := ulPackDelvalue p pname
      ((r.1, []), r.2)
  | .get pname pvalue size =>
      let r := ulPackGetvalueEx p pname pvalue size
      ((r.1, cstr (peek r.2 0 size)), p)
  | .clean =>
      let r := ulPackCleanhead p
      ((r.1, []), r.2)

open Classical in
/-- The operation on a map with at most 200 keys: a value that is put under a key in use is
replaced in its place, and another one is added behind the others while there is room. -/
noncomputable def spec (s : NameMap) : Op → Answer × NameMap
  | .put pname pvalue =>
      if Admitted (cstr pname) ∧ Admitted (cstr pvalue) then
        if cstr pname ∈ s then ((1, []), put s (cstr pname) (cstr pvalue))
        else if s.entries.length < maxPackItemNum then
          ((0, []), put s (cstr pname) (cstr pvalue))
        else ((-2, []), s)
      else ((-1, []), s)
  | .del pname =>
      if cstr pname ∈ s then ((0, []), s.erase (cstr pname)) else ((-1, []), s)
  | .get pname _ _ =>
      match s.lookup (cstr pname) with
      | some v => ((1, v), s)
      | none => ((0, []), s)
  | .clean => ((1, []), ∅)

/-- The package holds the entries of the map in its slots in use. -/
structure Represents (p : UlPackage) (s : NameMap) : Prop where
  admitted : p.AllAdmitted
  entries : s.entries = p.pairs.map Prod.toSigma

/-- An empty package holds the empty map. -/
theorem represents_init : Represents ulPackInit ∅ := ⟨allAdmitted_of_pairnum rfl, rfl⟩

/-- The map has as many entries as there are slots in use. -/
theorem Represents.length_entries {p : UlPackage} {s : NameMap} (h : Represents p s) :
    s.entries.length = p.pairnum := by
  rw [h.entries, List.length_map, UlPackage.pairs, length_slots]

/-- The entries are those of the slots in use. -/
theorem Represents.entries_eq {p : UlPackage} {s : NameMap} (h : Represents p s) :
    s.entries = slotEntries p.name p.value p.pairnum := by
  rw [h.entries, UlPackage.pairs, slots, List.map_map]
  rfl

/-- A name that is not found is not a key. -/
theorem Represents.not_mem_of_find {p : UlPackage} {s : NameMap} (h : Represents p s) {a : Bytes}
    (hfind : p.find a = none) : a ∉ s := by
  rw [AList.mem_keys, AList.keys, h.entries_eq]
  exact not_mem_of_find? (fun _ => decide_eq_true_iff) hfind

/-- A name that is found is the key of the entry at its slot, and of none in front of it. -/
theorem Represents.entry_of_find {p : UlPackage} {s : NameMap} (h : Represents p s) {a : Bytes}
    {i : ℕ} (hfind : p.find a = some i) :
    s.entries[i]? = some ⟨a, p.value i⟩ ∧ a ∉ (s.entries.take i).keys ∧ a ∈ s := by
  obtain ⟨-, hname, -⟩ := p.find_eq_some hfind
  rw [AList.mem_keys, AList.keys, h.entries_eq, ← hname]
  rw [← hname] at hfind
  exact entry_of_find? (fun _ => decide_eq_true_iff) hfind

/-! ## One operation -/

/-- `ul_pack_getvalue_ex` copies a value whole. -/
theorem getvalue_found {p : UlPackage} (h : p.AllAdmitted) {pname : Bytes} {i : ℕ}
    (hfind : p.find (cstr pname) = some i) (pvalue : Mem UInt8) {size : ℕ}
    (hsize : maxItemSize ≤ size) :
    (ulPackGetvalueEx p pname pvalue size).1 = 1 ∧
      cstr (peek (ulPackGetvalueEx p pname pvalue size).2 0 size) = p.value i := by
  obtain ⟨hi, -, -⟩ := p.find_eq_some hfind
  obtain ⟨-, hv⟩ := h.admitted _ (mem_slots.mpr ⟨i, hi, rfl⟩)
  have hlen : (p.value i).length < size := hv.length_lt.trans_le hsize
  simp only [ulPackGetvalueEx, hfind]
  refine ⟨trivial, ?_⟩
  obtain ⟨k, hk⟩ := Nat.exists_eq_add_of_lt hlen
  have hcells : (p.value i ++ [0]).length + k = size := by
    rw [List.length_append, List.length_singleton, hk]
    omega
  rw [snprintf, if_neg (by omega), List.take_of_length_le (by omega), ← hcells,
    peek_poke_front, List.append_assoc]
  exact cstr_append_nul hv.noNul _

/-- For a name that is not there `ul_pack_getvalue_ex` gives an empty string. -/
theorem getvalue_not_found {p : UlPackage} {pname : Bytes} (hfind : p.find (cstr pname) = none)
    (pvalue : Mem UInt8) {size : ℕ} (hsize : maxItemSize ≤ size) :
    (ulPackGetvalueEx p pname pvalue size).1 = 0 ∧
      cstr (peek (ulPackGetvalueEx p pname pvalue size).2 0 size) = [] := by
  obtain ⟨k, rfl⟩ : ∃ k, size = ([0] : Bytes).length + k :=
    ⟨size - 1, by rw [List.length_singleton]; simp only [maxItemSize] at hsize; omega⟩
  simp only [ulPackGetvalueEx, hfind]
  refine ⟨trivial, ?_⟩
  rw [peek_poke_front]
  rfl

/-- Putting refines putting. -/
theorem put_refines {p : UlPackage} {s : NameMap} (h : Represents p s) (pname pvalue : Bytes) :
    (exec p (.put pname pvalue)).1 = (spec s (.put pname pvalue)).1 ∧
      Represents (exec p (.put pname pvalue)).2 (spec s (.put pname pvalue)).2 := by
  have hadmitted := ulPackPutvalue_admitted h.admitted pname pvalue
  simp only [exec, spec]
  by_cases hadm : Admitted (cstr pname) ∧ Admitted (cstr pvalue)
  swap
  · rw [if_neg hadm, ulPackPutvalue_refused p hadm]
    exact ⟨rfl, h⟩
  rw [if_pos hadm]
  rw [ulPackPutvalue_admitted_eq p hadm.1 hadm.2] at hadmitted ⊢
  cases hfind : p.find (cstr pname) with
  | some i =>
      obtain ⟨hentry, hfirst, hmem⟩ := h.entry_of_find hfind
      obtain ⟨-, hname, -⟩ := p.find_eq_some hfind
      rw [hfind] at hadmitted
      rw [if_pos hmem]
      refine ⟨rfl, hadmitted, ?_⟩
      rw [entries_put_of_mem _ hmem, kreplace_eq_set _ hentry hfirst, h.entries]
      simp only [UlPackage.pairs, slots_update_value, List.map_set, hname, Prod.toSigma_mk]
  | none =>
      rw [hfind] at hadmitted
      have hmem := h.not_mem_of_find hfind
      rw [if_neg hmem, h.length_entries]
      dsimp only at hadmitted ⊢
      split_ifs with hnum
      · rw [if_pos hnum] at hadmitted
        refine ⟨rfl, hadmitted, ?_⟩
        rw [entries_put_of_not_mem _ hmem, h.entries]
        simp only [UlPackage.pairs, slots_update, List.map_append, List.map_cons, List.map_nil,
          Prod.toSigma_mk]
      · exact ⟨rfl, h⟩

/-- Deleting refines erasing. -/
theorem del_refines {p : UlPackage} {s : NameMap} (h : Represents p s) (pname : Bytes) :
    (exec p (.del pname)).1 = (spec s (.del pname)).1 ∧
      Represents (exec p (.del pname)).2 (spec s (.del pname)).2 := by
  simp only [exec, spec]
  cases hfind : p.find (cstr pname) with
  | some i =>
      obtain ⟨hentry, hfirst, hmem⟩ := h.entry_of_find hfind
      obtain ⟨hret, hpairs, hnum⟩ := ulPackDelvalue_pairs h.admitted hfind
      rw [if_pos hmem, hret]
      refine ⟨rfl, ⟨?_, ?_⟩, ?_⟩
      · rw [hnum]
        exact (Nat.sub_le _ _).trans h.admitted.pairnum_le
      · intro x hx
        rw [hpairs] at hx
        exact h.admitted.admitted x (List.eraseIdx_subset hx)
      · rw [hpairs]
        change List.kerase (cstr pname) s.entries = _
        rw [kerase_eq_eraseIdx hentry hfirst, h.entries, List.eraseIdx_map]
  | none =>
      rw [if_neg (h.not_mem_of_find hfind), ulPackDelvalue, hfind]
      exact ⟨rfl, h⟩

/-- Getting refines looking up. -/
theorem get_refines {p : UlPackage} {s : NameMap} (h : Represents p s) (pname : Bytes)
    (pvalue : Mem UInt8) {size : ℕ} (hsize : maxItemSize ≤ size) :
    (exec p (.get pname pvalue size)).1 = (spec s (.get pname pvalue size)).1 ∧
      Represents (exec p (.get pname pvalue size)).2 (spec s (.get pname pvalue size)).2 := by
  simp only [exec, spec, AList.lookup]
  cases hfind : p.find (cstr pname) with
  | some i =>
      obtain ⟨hentry, hfirst, -⟩ := h.entry_of_find hfind
      obtain ⟨hret, htext⟩ := getvalue_found h.admitted hfind pvalue hsize
      rw [dlookup_eq_of_first hentry hfirst, hret, htext]
      exact ⟨rfl, h⟩
  | none =>
      obtain ⟨hret, htext⟩ := getvalue_not_found hfind pvalue hsize
      rw [List.dlookup_eq_none.mpr (h.not_mem_of_find hfind), hret, htext]
      exact ⟨rfl, h⟩

/-- **One operation on a package is the operation on the map.** -/
theorem exec_refines {p : UlPackage} {s : NameMap} (h : Represents p s) {op : Op}
    (hroom : op.HasRoom) :
    (exec p op).1 = (spec s op).1 ∧ Represents (exec p op).2 (spec s op).2 := by
  cases op with
  | put pname pvalue => exact put_refines h pname pvalue
  | del pname => exact del_refines h pname
  | get pname pvalue size => exact get_refines h pname pvalue hroom
  | clean => exact ⟨rfl, allAdmitted_of_pairnum rfl, rfl⟩

/-- An operation that returns a negative value changes nothing. -/
theorem exec_of_neg (p : UlPackage) {op : Op} (h : (exec p op).1.1 < 0) : (exec p op).2 = p := by
  have hzero : ¬ (0 : ℤ) < 0 := by omega
  have hone : ¬ (1 : ℤ) < 0 := by omega
  cases op with
  | put pname pvalue =>
      rcases ulPackPutvalue_cases p pname pvalue with
        ⟨-, heq⟩ | ⟨-, -, ⟨i, -, -, heq⟩ | ⟨-, heq⟩⟩
      · exact heq
      · simp only [exec, heq] at h
        exact absurd h hone
      · simp only [exec, heq] at h
        exact absurd h hzero
  | del pname =>
      simp only [exec, ulPackDelvalue] at h ⊢
      cases hfind : p.find (cstr pname) with
      | some i =>
          rw [hfind] at h
          exact absurd h hzero
      | none => rfl
  | get pname pvalue size => rfl
  | clean => exact absurd h hone

/-! ## Runs -/

/-- Operations on a package, one after another. -/
def execAll (p : UlPackage) : List Op → List Answer × UlPackage
  | [] => ([], p)
  | op :: ops =>
      let r := exec p op
      let t := execAll r.2 ops
      (r.1 :: t.1, t.2)

/-- The operations on the map. -/
noncomputable def specAll (s : NameMap) : List Op → List Answer × NameMap
  | [] => ([], s)
  | op :: ops =>
      let r := spec s op
      let t := specAll r.2 ops
      (r.1 :: t.1, t.2)

/-- What a name holds behind an operation with its answer, when it held `v`. -/
def remember (a : Bytes) (v : Option Bytes) : Op × Answer → Option Bytes
  | (.put pname pvalue, ret, _) => if cstr pname = a ∧ 0 ≤ ret then some (cstr pvalue) else v
  | (.del pname, _) => if cstr pname = a then none else v
  | (.get _ _ _, _) => v
  | (.clean, _) => none

/-- The value that was put last for a name and not deleted since. -/
def lastPut (a : Bytes) (history : List (Op × Answer)) : Option Bytes :=
  history.foldl (remember a) none

/-- What a name holds in the map behind an operation. -/
theorem lookup_spec (s : NameMap) (op : Op) (a : Bytes) :
    (spec s op).2.lookup a = remember a (s.lookup a) (op, (spec s op).1) := by
  have hput : ∀ n v : Bytes,
      (put s n v).lookup a = if n = a then some v else s.lookup a := by
    intro n v
    split_ifs with h
    · rw [h, lookup_put_self]
    · exact lookup_put_of_ne s v (Ne.symm h)
  cases op with
  | put pname pvalue =>
      have hkept : ∀ ret : ℤ, 0 ≤ ret → (put s (cstr pname) (cstr pvalue)).lookup a =
          remember a (s.lookup a) (.put pname pvalue, ret, []) := by
        intro ret hret
        simp only [hput, remember, hret, and_true]
      have hrefused : ∀ ret : ℤ, ret < 0 → s.lookup a =
          remember a (s.lookup a) (.put pname pvalue, ret, []) := by
        intro ret hret
        rw [remember, if_neg fun h => absurd h.2 (not_le.mpr hret)]
      simp only [spec]
      split_ifs
      · exact hkept 1 (by decide)
      · exact hkept 0 (le_refl 0)
      · exact hrefused (-2) (by decide)
      · exact hrefused (-1) (by decide)
  | del pname =>
      simp only [spec, remember]
      by_cases hmem : cstr pname ∈ s
      · rw [if_pos hmem]
        split_ifs with h
        · rw [h, AList.lookup_erase]
        · exact AList.lookup_erase_ne (Ne.symm h)
      · rw [if_neg hmem]
        split_ifs with h
        · rw [← h]
          exact AList.lookup_eq_none.mpr hmem
        · rfl
  | get pname pvalue size =>
      simp only [spec, remember]
      split <;> rfl
  | clean => rfl

/-- The names of the map hold what was put last. -/
theorem lookup_specAll (s : NameMap) (ops : List Op) (a : Bytes) :
    (specAll s ops).2.lookup a =
      (ops.zip (specAll s ops).1).foldl (remember a) (s.lookup a) := by
  induction ops generalizing s with
  | nil => rfl
  | cons op ops ih =>
      simp only [specAll, List.zip_cons_cons, List.foldl_cons]
      rw [ih, lookup_spec]

/-- A run on a package is the run on the map. -/
theorem execAll_refines {p : UlPackage} {s : NameMap} (h : Represents p s) {ops : List Op}
    (hroom : ∀ op ∈ ops, op.HasRoom) :
    (execAll p ops).1 = (specAll s ops).1 ∧
      Represents (execAll p ops).2 (specAll s ops).2 := by
  induction ops generalizing p s with
  | nil => exact ⟨rfl, h⟩
  | cons op ops ih =>
      rw [List.forall_mem_cons] at hroom
      obtain ⟨hanswer, hrep⟩ := exec_refines h hroom.1
      obtain ⟨hanswers, hreps⟩ := ih hrep hroom.2
      simp only [execAll, specAll]
      exact ⟨by rw [hanswer, hanswers], hreps⟩

/-- **A package is an insertion-ordered map** over every run from an empty package: the answers and
the pairs are those of the map, names are distinct, at most 200 are in use, every name holds what
was put last for it, and an operation that fails changes nothing. -/
theorem run_refines (ops : List Op) (hroom : ∀ op ∈ ops, op.HasRoom) :
    (execAll ulPackInit ops).1 = (specAll ∅ ops).1 ∧
      (execAll ulPackInit ops).2.pairs.map Prod.toSigma = (specAll ∅ ops).2.entries ∧
      ((execAll ulPackInit ops).2.pairs.map Prod.fst).Nodup ∧
      (execAll ulPackInit ops).2.pairnum ≤ maxPackItemNum ∧
      (∀ a, (specAll ∅ ops).2.lookup a =
        lastPut a (ops.zip (execAll ulPackInit ops).1)) ∧
      ∀ op, (exec (execAll ulPackInit ops).2 op).1.1 < 0 →
        (exec (execAll ulPackInit ops).2 op).2 = (execAll ulPackInit ops).2 := by
  obtain ⟨hanswers, hrep⟩ := execAll_refines represents_init hroom
  refine ⟨hanswers, hrep.entries.symm, ?_, hrep.admitted.pairnum_le, ?_, fun op => exec_of_neg _⟩
  · have hnodup := (specAll ∅ ops).2.nodupKeys
    rwa [List.NodupKeys, List.keys, hrep.entries, List.map_map, Prod.fst_comp_toSigma] at hnodup
  · intro a
    rw [hanswers, lookup_specAll]
    rfl

/-- A name is put twice, looked up and deleted. -/
def smallRun : List Op :=
  [.put (ascii "k") (ascii "v"), .put (ascii "k") (ascii "w"), .get (ascii "k") (fun _ => 7) 2048,
    .del (ascii "k"), .clean]

/-- The value that was put last is found. -/
example : ((execAll ulPackInit smallRun).1.getD 2 (0, [])) = (1, ascii "w") := by decide +kernel

/-- The run of `smallRun`. -/
theorem run_refines_small :
    (execAll ulPackInit smallRun).1 = (specAll ∅ smallRun).1 ∧
      (execAll ulPackInit smallRun).2.pairs.map Prod.toSigma = (specAll ∅ smallRun).2.entries ∧
      ((execAll ulPackInit smallRun).2.pairs.map Prod.fst).Nodup ∧
      (execAll ulPackInit smallRun).2.pairnum ≤ maxPackItemNum ∧
      (∀ a, (specAll ∅ smallRun).2.lookup a =
        lastPut a (smallRun.zip (execAll ulPackInit smallRun).1)) ∧
      ∀ op, (exec (execAll ulPackInit smallRun).2 op).1.1 < 0 →
        (exec (execAll ulPackInit smallRun).2 op).2 = (execAll ulPackInit smallRun).2 := by
  apply run_refines
  simp only [smallRun, List.forall_mem_cons, Op.HasRoom, true_and]
  exact ⟨by decide, fun _ h => absurd h List.not_mem_nil⟩

end Asenal.Pack
