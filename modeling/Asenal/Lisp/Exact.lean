import Asenal.Lisp.Refine

/-!
# Calculations that do not fit

`builtin_op` calculates with longs and tests for a division by zero only: a sum, difference, product or
negation that does not fit is undefined, and so is the quotient of the least long and -1. When a number is
read, the source does test that it fits.

* `denote_agrees` — as long as every result fits, longs have the meaning of integers.
* `lvalEval_defined_iff` — evaluation makes only defined calculations iff over the integers every result
  that comes up fits.
-/

namespace Asenal.Lisp

open Asenal.Lib.Text Asenal.Lib.CString Asenal.Lib.Trace

variable {N M : Type}

/-- The exact result is a long. -/
def Calc.Fits (c : Calc) : Prop := -2 ^ 63 ≤ c.exact ∧ c.exact < 2 ^ 63

/-- A calculation that is defined in C. -/
def Event.Defined : Event → Prop
  | .calculate c => c.Fits ∧ ∀ x y, c = .div x y → y ≠ 0
  | _ => True

/-! ## Numbers that are replaced -/

mutual

/-- Replace the numbers of a tree. -/
def Lval.map (φ : N → M) : Lval N → Lval M
  | .num n => .num (φ n)
  | .err e => .err e
  | .sym s => .sym s
  | .sexpr cell => .sexpr (mapAll φ cell)
  | .qexpr cell => .qexpr (mapAll φ cell)

/-- Replace the numbers of some trees. -/
def mapAll (φ : N → M) : List (Lval N) → List (Lval M)
  | [] => []
  | x :: l => x.map φ :: mapAll φ l

end

section

variable (φ : N → M)

mutual

/-- A value has as many nodes with other numbers. -/
theorem nodes_map : (v : Lval N) → (v.map φ).nodes = v.nodes
  | .num _ => rfl
  | .err _ => rfl
  | .sym _ => rfl
  | .sexpr cell => congrArg (1 + ·) (nodesAll_mapAll cell)
  | .qexpr cell => congrArg (1 + ·) (nodesAll_mapAll cell)

/-- Values have as many nodes with other numbers. -/
theorem nodesAll_mapAll : (l : List (Lval N)) → nodesAll (mapAll φ l) = nodesAll l
  | [] => rfl
  | x :: l => by rw [mapAll, nodesAll, nodesAll, nodes_map x, nodesAll_mapAll l]

end

/-- A value has the same type with other numbers. -/
theorem type_map (v : Lval N) : (v.map φ).type = v.type := by
  cases v <;> rfl

/-- The numbers of each value are changed. -/
theorem mapAll_eq_map (l : List (Lval N)) : mapAll φ l = l.map (Lval.map φ) := by
  induction l with
  | nil => rfl
  | cons x l ih => rw [mapAll, ih, List.map_cons]

/-- What is quoted, with other numbers. -/
theorem quoted_map (v : Lval N) : (v.map φ).quoted = mapAll φ v.quoted := by
  cases v <;> rfl

/-- The number of a value, changed. -/
theorem num?_map (v : Lval N) : (v.map φ).num? = v.num?.map φ := by
  cases v <;> rfl

/-- The first error is found at the same place. -/
theorem find?_mapAll (l : List (Lval N)) :
    ((mapAll φ l).find? fun x => x.type = .err) = (l.find? fun x => x.type = .err).map (Lval.map φ) := by
  induction l with
  | nil => rfl
  | cons x l ih =>
      rw [mapAll, List.find?_cons, List.find?_cons, type_map, ih]
      cases decide (x.type = .err) <;> rfl

/-- All values have a type with other numbers. -/
theorem forall_type_mapAll (t : LvalType) (l : List (Lval N)) :
    (∀ x ∈ mapAll φ l, x.type = t) ↔ ∀ x ∈ l, x.type = t := by
  rw [mapAll_eq_map, List.forall_mem_map]
  simp only [type_map]

/-- What some values quote, with other numbers. -/
theorem flatMap_quoted_mapAll (l : List (Lval N)) :
    (mapAll φ l).flatMap Lval.quoted = mapAll φ (l.flatMap Lval.quoted) := by
  induction l with
  | nil => rfl
  | cons x l ih =>
      rw [mapAll, List.flatMap_cons, List.flatMap_cons, ih, quoted_map]
      simp only [mapAll_eq_map, List.map_append]

/-- The numbers of some values, changed. -/
theorem filterMap_num?_mapAll (l : List (Lval N)) :
    (mapAll φ l).filterMap Lval.num? = (l.filterMap Lval.num?).map φ := by
  induction l with
  | nil => rfl
  | cons x l ih =>
      rw [mapAll, List.filterMap_cons, List.filterMap_cons, num?_map, ih]
      cases x.num? <;> rfl

end

/-! ## Longs and integers -/

/-- The outcome over the integers: every result fits in both or in none, and if so, the numbers are the
same. -/
structure Agrees (φ : N → ℤ) (r : Outcome N) (r' : Outcome ℤ) : Prop where
  fits : (∀ c ∈ r.calcs, c.Fits) ↔ ∀ c ∈ r'.calcs, c.Fits
  value : (∀ c ∈ r.calcs, c.Fits) → r'.value = r.value.map φ

/-- A tree that is there without a calculation. -/
theorem agrees_plain {φ : N → ℤ} (v : Lval N) : Agrees φ ⟨[], v⟩ ⟨[], v.map φ⟩ :=
  ⟨Iff.rfl, fun _ => rfl⟩

/-- One more calculation, the same in both. -/
theorem agrees_cons {φ : N → ℤ} (c : Calc) (r : Outcome N) (r' : Outcome ℤ)
    (h : c.Fits → Agrees φ r r') :
    Agrees φ ⟨c :: r.calcs, r.value⟩ ⟨c :: r'.calcs, r'.value⟩ := by
  constructor
  · rw [List.forall_mem_cons, List.forall_mem_cons]
    constructor
    · rintro ⟨hc, hrest⟩
      exact ⟨hc, (h hc).fits.mp hrest⟩
    · rintro ⟨hc, hrest⟩
      exact ⟨hc, (h hc).fits.mpr hrest⟩
  · intro hall
    rw [List.forall_mem_cons] at hall
    exact (h hall.1).value hall.2

/-- The reductions of the same cells. -/
def ReductsAgree (φ : N → ℤ) : Reduct N → Reduct ℤ → Prop
  | .done r, .done r' => Agrees φ r r'
  | .again l, .again l' => l' = mapAll φ l
  | _, _ => False

/-- A function of one Q-expression does not look at numbers. -/
theorem onQexpr_agree {φ : N → ℤ} {tooMany wrongType : String} {f : List (Lval N) → Reduct N}
    {f' : List (Lval ℤ) → Reduct ℤ} (hf : ∀ l, ReductsAgree φ (f l) (f' (mapAll φ l)))
    (args : List (Lval N)) :
    ReductsAgree φ (onQexpr tooMany wrongType f args)
      (onQexpr tooMany wrongType f' (mapAll φ args)) := by
  match args with
  | [] => exact agrees_plain _
  | [x] =>
      cases x with
      | qexpr l => exact hf l
      | _ => exact agrees_plain _
  | x :: y :: l => cases x <;> exact agrees_plain _

/-- The meanings of some trees over the integers. -/
theorem denoteAll_agree {φ : N → ℤ} {f : Lval N → Option (Outcome N)} {f' : Lval ℤ → Option (Outcome ℤ)}
    (hf : ∀ v r r', f v = some r → f' (v.map φ) = some r' → Agrees φ r r')
    {l : List (Lval N)} {rs : List Calc × List (Lval N)} {rs' : List Calc × List (Lval ℤ)}
    (h : denoteAll f l = some rs) (h' : denoteAll f' (mapAll φ l) = some rs') :
    ((∀ c ∈ rs.1, c.Fits) ↔ ∀ c ∈ rs'.1, c.Fits) ∧
      ((∀ c ∈ rs.1, c.Fits) → rs'.2 = mapAll φ rs.2) := by
  induction l generalizing rs rs' with
  | nil =>
      obtain rfl := Option.some.inj h
      obtain rfl := Option.some.inj h'
      exact ⟨Iff.rfl, fun _ => rfl⟩
  | cons x l ih =>
      obtain ⟨r, hr, htail⟩ := Option.bind_eq_some_iff.mp h
      obtain ⟨rest, hrest, heq⟩ := Option.bind_eq_some_iff.mp htail
      obtain rfl := Option.some.inj heq
      obtain ⟨r', hr', htail'⟩ := Option.bind_eq_some_iff.mp h'
      obtain ⟨rest', hrest', heq'⟩ := Option.bind_eq_some_iff.mp htail'
      obtain rfl := Option.some.inj heq'
      have hx := hf x r r' hr hr'
      obtain ⟨hfits, hvalues⟩ := ih hrest hrest'
      constructor
      · rw [List.forall_mem_append, List.forall_mem_append, hx.fits, hfits]
      · intro hall
        rw [List.forall_mem_append] at hall
        rw [mapAll, hx.value hall.1, hvalues hall.2]

/-- Unbounded integers are their own value. -/
theorem toInt_unbounded (n : ℤ) : unbounded.toInt n = n := rfl

section

variable {A : Arith N} (hA : ∀ z, -2 ^ 63 ≤ z → z < 2 ^ 63 → A.toInt (A.ofInt z) = z)

include hA

/-- An operation on numbers in range is the one on integers, or leaves the range. -/
theorem operate_agrees (op : Bytes) (x : N) (ys : List N) :
    Agrees A.toInt (operate A op x ys) (operate unbounded op (A.toInt x) (ys.map A.toInt)) := by
  induction ys generalizing x with
  | nil => exact agrees_plain (.num x)
  | cons y ys ih =>
      rw [List.map_cons, operate, operate, toInt_unbounded, toInt_unbounded]
      split_ifs with hzero
      · exact agrees_plain _
      · cases calcOf op (A.toInt x) (A.toInt y) with
        | none => exact ih x
        | some c =>
            apply agrees_cons
            intro hfits
            have hih := ih (A.ofInt c.exact)
            rw [hA _ hfits.1 hfits.2] at hih
            exact hih

/-- Operations on numbers in range are those on integers, or leave the range. -/
theorem operateAll_agrees (op : Bytes) (ns : List N) :
    Agrees A.toInt (operateAll A op ns) (operateAll unbounded op (ns.map A.toInt)) := by
  cases ns with
  | nil => exact agrees_plain _
  | cons x ys =>
      rw [List.map_cons, operateAll, operateAll]
      by_cases hneg : op = ascii "-" ∧ ys = []
      · have hneg' : op = ascii "-" ∧ ys.map A.toInt = [] := by
          rw [hneg.2]
          exact ⟨hneg.1, rfl⟩
        rw [if_pos hneg, if_pos hneg']
        apply agrees_cons _ ⟨[], _⟩ ⟨[], _⟩
        intro hfits
        refine ⟨Iff.rfl, fun _ => ?_⟩
        show Lval.num (-A.toInt x) = Lval.num (A.toInt (A.ofInt (Calc.neg (A.toInt x)).exact))
        rw [hA _ hfits.1 hfits.2]
        rfl
      · have hneg' : ¬ (op = ascii "-" ∧ ys.map A.toInt = []) := by
          rw [List.map_eq_nil_iff]
          exact hneg
        rw [if_neg hneg, if_neg hneg']
        exact operate_agrees hA op x ys

/-- A function does the same with numbers in range and with integers. -/
theorem apply_agree (func : Bytes) (args : List (Lval N)) :
    ReductsAgree A.toInt (apply A func args) (apply unbounded func (mapAll A.toInt args)) := by
  have herr : ∀ m, ReductsAgree A.toInt (.plain (lvalErr m)) (.plain (lvalErr m)) :=
    fun m => agrees_plain _
  unfold apply
  simp only [forall_type_mapAll, flatMap_quoted_mapAll, filterMap_num?_mapAll]
  split_ifs
  · exact agrees_plain (.qexpr args)
  · apply onQexpr_agree
    intro l
    cases l <;> exact agrees_plain _
  · apply onQexpr_agree
    intro l
    cases l <;> exact agrees_plain _
  · exact agrees_plain (.qexpr _)
  · exact herr _
  · apply onQexpr_agree
    intro l
    rfl
  · exact operateAll_agrees hA func _
  · exact herr _
  · exact herr _

/-- A list is reduced to the same. -/
theorem reduce_agree (cell : List (Lval N)) :
    ReductsAgree A.toInt (reduce A cell) (reduce unbounded (mapAll A.toInt cell)) := by
  unfold reduce
  rw [find?_mapAll]
  cases cell.find? fun x => x.type = .err with
  | some e => exact agrees_plain e
  | none =>
      match cell with
      | [] => exact agrees_plain _
      | [x] => exact agrees_plain x
      | x :: y :: l =>
          cases x with
          | sym func => exact apply_agree hA func (y :: l)
          | _ => exact agrees_plain _

/-- **As long as every result fits, longs have the meaning of integers.** -/
theorem denote_agrees (depth : ℕ) (v : Lval N) {r : Outcome N} {r' : Outcome ℤ}
    (h : denote A depth v = some r) (h' : denote unbounded depth (v.map A.toInt) = some r') :
    Agrees A.toInt r r' := by
  induction depth generalizing v r r' with
  | zero => exact absurd h (by simp [denote])
  | succ depth ih =>
      have hvalue : ∀ v : Lval N, some ⟨[], v⟩ = some r → some ⟨[], v.map A.toInt⟩ = some r' →
          Agrees A.toInt r r' := by
        intro v hr hr'
        obtain rfl := Option.some.inj hr
        obtain rfl := Option.some.inj hr'
        exact agrees_plain v
      cases v with
      | num n => exact hvalue (.num n) h h'
      | err e => exact hvalue (.err e) h h'
      | sym s => exact hvalue (.sym s) h h'
      | qexpr cell => exact hvalue (.qexpr cell) h h'
      | sexpr cell =>
          obtain ⟨args, hargs, hreduce⟩ := Option.bind_eq_some_iff.mp h
          obtain ⟨args', hargs', hreduce'⟩ := Option.bind_eq_some_iff.mp h'
          obtain ⟨o, ho, rfl⟩ := outcome_calcs hreduce
          obtain ⟨o', ho', rfl⟩ := outcome_calcs hreduce'
          obtain ⟨hfits, hvalues⟩ := denoteAll_agree (fun v r r' => ih v) hargs hargs'
          -- behind cells that agree, the reductions agree
          have hagrees : (∀ c ∈ args.1, c.Fits) → Agrees A.toInt o o' := by
            intro hall
            rw [hvalues hall] at ho'
            have hreducts := reduce_agree hA args.2
            cases hs : reduce A args.2 with
            | done d =>
                cases hs' : reduce unbounded (mapAll A.toInt args.2) with
                | done d' =>
                    rw [hs] at ho hreducts
                    rw [hs'] at ho' hreducts
                    obtain rfl := Option.some.inj ho
                    obtain rfl := Option.some.inj ho'
                    exact hreducts
                | again l' =>
                    rw [hs, hs'] at hreducts
                    exact absurd hreducts id
            | again l =>
                cases hs' : reduce unbounded (mapAll A.toInt args.2) with
                | done d' =>
                    rw [hs, hs'] at hreducts
                    exact absurd hreducts id
                | again l' =>
                    rw [hs] at ho hreducts
                    rw [hs'] at ho' hreducts
                    obtain rfl : l' = mapAll A.toInt l := hreducts
                    obtain ⟨d, hd, heq⟩ := Option.bind_eq_some_iff.mp ho
                    obtain ⟨d', hd', heq'⟩ := Option.bind_eq_some_iff.mp ho'
                    obtain rfl := Option.some.inj heq
                    obtain rfl := Option.some.inj heq'
                    exact ih (.sexpr l) hd hd'
          constructor
          · rw [List.forall_mem_append, List.forall_mem_append]
            constructor
            · rintro ⟨hcells, hrest⟩
              exact ⟨hfits.mp hcells, (hagrees hcells).fits.mp hrest⟩
            · rintro ⟨hcells, hrest⟩
              exact ⟨hfits.mpr hcells, (hagrees (hfits.mpr hcells)).fits.mpr hrest⟩
          · intro hall
            rw [List.forall_mem_append] at hall
            exact (hagrees hall.1).value hall.2

end

/-! ## Evaluation with longs -/

/-- **A value** means the same in the range and over the integers. -/
theorem meaning_agrees (v : Lval Int64) :
    Agrees Int64.toInt (meaning long v) (meaning unbounded (v.map Int64.toInt)) := by
  have hlong : ∀ z, -2 ^ 63 ≤ z → z < 2 ^ 63 → long.toInt (long.ofInt z) = z :=
    fun z hle hlt => Int64.toInt_ofInt_of_le hle hlt
  have hdenote := (settled_meaning unbounded (v.map Int64.toInt)).denote v.nodes
    (by rw [nodes_map])
  exact denote_agrees hlong v.nodes v ((settled_meaning long v).denote _ (Nat.le_refl _)) hdenote

/-- The calculations of a run that makes no division by zero are defined iff their results fit. -/
theorem defined_iff_fits {α : Type} {x : Run α} {calcs : List Calc} {a : α}
    (h : Behaves x calcs a) : (∀ e ∈ x.log, e.Defined) ↔ ∀ c ∈ calcs, c.Fits := by
  rw [← h.observed]
  constructor
  · intro hdefined c hc
    obtain ⟨e, he, hcalc⟩ := List.mem_filterMap.mp hc
    cases e with
    | calculate d =>
        obtain rfl := Option.some.inj hcalc
        exact (hdefined _ he).1
    | cell i n => cases hcalc
    | count t => cases hcalc
  · intro hfits e he
    cases e with
    | calculate c =>
        refine ⟨hfits c (List.mem_filterMap.mpr ⟨_, he, rfl⟩), ?_⟩
        rintro x y rfl
        exact h.log _ he
    | cell i n => trivial
    | count t => trivial

/-- **Evaluation makes only defined calculations** iff, over the integers, every sum, difference,
product, quotient and negation that comes up fits in 64 bits; and then what it returns is what comes out
over the integers. -/
theorem lvalEval_defined_iff (v : Lval Int64) (depth : ℕ) (h : v.nodes ≤ depth) :
    ((∀ e ∈ (lvalEval long depth v).log, e.Defined) ↔
        ∀ c ∈ (meaning unbounded (v.map Int64.toInt)).calcs, c.Fits) ∧
      ((∀ c ∈ (meaning unbounded (v.map Int64.toInt)).calcs, c.Fits) →
        ∃ r, (lvalEval long depth v).result = .ok r ∧
          r.map Int64.toInt = (meaning unbounded (v.map Int64.toInt)).value) := by
  have hbehaves := behaves_of_nodes_le long h
  have hagrees := meaning_agrees v
  refine ⟨(defined_iff_fits hbehaves).trans hagrees.fits, fun hfits => ?_⟩
  exact ⟨_, hbehaves.result, (hagrees.value (hagrees.fits.mpr hfits)).symm⟩

/-- `(- 1)`, where the negation fits. -/
theorem lvalEval_defined_iff_neg :
    (∀ e ∈ (lvalEval long 3 (.sexpr [.sym (ascii "-"), .num 1])).log, e.Defined) ↔
      ∀ c ∈ (meaning unbounded ((Lval.sexpr [.sym (ascii "-"), .num (1 : Int64)]).map
        Int64.toInt)).calcs, c.Fits :=
  (lvalEval_defined_iff _ 3 (by simp [Lval.nodes, nodesAll])).1

/-- The greatest long and one more: the sum does not fit, and is calculated. -/
theorem lvalEval_overflows :
    ¬ ∀ (v : Lval Int64) (depth : ℕ), v.nodes ≤ depth →
      ∀ e ∈ (lvalEval long depth v).log, e.Defined := by
  intro h
  have hdefined := h (.sexpr [.sym (ascii "+"), .num 9223372036854775807, .num 1]) 4
    (by simp [Lval.nodes, nodesAll]) (.calculate (.add 9223372036854775807 1)) (by decide)
  exact absurd hdefined.1.2 (by decide)

end Asenal.Lisp
