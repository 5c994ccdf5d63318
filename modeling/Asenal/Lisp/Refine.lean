import Asenal.Lisp.Meaning

/-!
# The evaluator finds the meaning

Every loop of the evaluator, with its indices and counts, does on lists of trees what the meaning of the
language says, and all its accesses are safe on the way.

* `behaves_builtin`, `behaves_lvalEval` — the functions of the language, and the evaluator.
* `lvalEval_terminates` — evaluation terminates and never grows a tree.
* `lvalEval_idempotent` — it returns a value, which it does not change when it is evaluated again.
* `lvalEval_safe` — every access on the way is safe.
-/

namespace Asenal.Lisp

open Asenal.Lib.Text Asenal.Lib.CString Asenal.Lib.Trace

variable {N : Type} {α : Type}

/-- An access inside of the cells, an access to the count of a Q-expression, no division by zero. -/
def Event.Safe : Event → Prop
  | .cell i n => i < n
  | .count t => t = .qexpr
  | .calculate (.div _ y) => y ≠ 0
  | .calculate _ => True

/-- The calculation that is recorded. -/
def Event.calc? : Event → Option Calc
  | .calculate c => some c
  | _ => none

/-- All accesses of a run are safe, and it returns after these calculations. -/
abbrev Behaves (x : Run α) (calcs : List Calc) (a : α) : Prop :=
  Yields Event.Safe Event.calc? x calcs a

/-! ## Cells -/

/-- An access in range. -/
theorem behaves_access {i n : ℕ} (h : i < n) : Behaves (emit (Event.cell i n)) [] () :=
  yields_emit_hidden (e := Event.cell i n) h rfl

/-- A cell is read. -/
theorem behaves_cellAt {v : List (Lval N)} {i : ℕ} {x : Lval N} (h : v[i]? = some x) :
    Behaves (cellAt v i) [] x := by
  have hlt : i < v.length := by
    rw [List.getElem?_eq_some_iff] at h
    exact h.1
  apply (behaves_access hlt).then
  rw [h]
  exact yields_pure x

/-- A cell is written. -/
theorem behaves_setCell {v : List (Lval N)} {i : ℕ} (h : i < v.length) (x : Lval N) :
    Behaves (setCell v i x) [] (v.set i x) :=
  (behaves_access h).then (yields_pure _)

/-- The cells of a quoted list. -/
theorem behaves_cells (cell : List (Lval N)) : Behaves (cells (.qexpr cell)) [] cell := by
  have hcount : Behaves (emit (Event.count .qexpr)) [] () := by
    apply yields_emit_hidden
    · show LvalType.qexpr = .qexpr
      rfl
    · rfl
  exact hcount.then (yields_pure cell)

mutual

/-- A value is deleted with everything in it. -/
theorem behaves_lvalDel : (v : Lval N) → Behaves (lvalDel v) [] ()
  | .num _ => yields_pure ()
  | .err _ => yields_pure ()
  | .sym _ => yields_pure ()
  | .qexpr cell => behaves_lvalDelCells cell.length 0 cell (Nat.zero_add _)
  | .sexpr cell => behaves_lvalDelCells cell.length 0 cell (Nat.zero_add _)

/-- So are the cells from one on. -/
theorem behaves_lvalDelCells (count i : ℕ) :
    (l : List (Lval N)) → i + l.length = count → Behaves (lvalDelCells count i l) [] ()
  | [], _ => yields_pure ()
  | x :: l, h => by
      rw [List.length_cons] at h
      rw [lvalDelCells]
      apply (behaves_access (show i < count by omega)).then
      apply (behaves_lvalDel x).then
      exact behaves_lvalDelCells count (i + 1) l (by omega)

end

/-- A value is added behind the others. -/
theorem behaves_lvalAdd (v : List (Lval N)) (x : Lval N) : Behaves (lvalAdd v x) [] (v ++ [x]) :=
  (behaves_access (Nat.lt_succ_self _)).then (yields_pure _)

/-- A value is taken out of a list. -/
theorem behaves_lvalPop {v : List (Lval N)} {i : ℕ} {x : Lval N} (h : v[i]? = some x) :
    Behaves (lvalPop v i) [] (x, v.eraseIdx i) :=
  (behaves_cellAt h).then (yields_pure _)

/-- The first cell is popped. -/
theorem behaves_lvalPop_zero (x : Lval N) (v : List (Lval N)) :
    Behaves (lvalPop (x :: v) 0) [] (x, v) := behaves_lvalPop rfl

/-- A value is taken, and the rest of its list deleted. -/
theorem behaves_lvalTake {v : List (Lval N)} {i : ℕ} {x : Lval N} (h : v[i]? = some x) :
    Behaves (lvalTake v i) [] x :=
  (behaves_lvalPop h).then ((behaves_lvalDel _).then (yields_pure x))

/-- The cells of the second list are moved, one after the other. -/
theorem behaves_joinCells (x y : List (Lval N)) :
    Behaves (joinCells y.length x y) [] (x ++ y, []) := by
  induction y generalizing x with
  | nil =>
      rw [List.append_nil]
      exact yields_pure _
  | cons c y ih =>
      have happend : x ++ c :: y = (x ++ [c]) ++ y := by simp
      rw [happend]
      apply (behaves_lvalPop_zero c y).then
      apply (behaves_lvalAdd x c).then
      exact ih (x ++ [c])

/-- Two lists are joined. -/
theorem behaves_lvalJoin (x y : List (Lval N)) : Behaves (lvalJoin x y) [] (x ++ y) :=
  (behaves_joinCells x y).then ((behaves_lvalDel _).then (yields_pure _))

/-- `LASSERT`: behind it the condition holds, or the error is the result. -/
theorem behaves_lassert {args : List (Lval N)} {cond : Prop} [Decidable cond] {err : String}
    {rest : Run (Lval N)} {calcs : List Calc} {a : Lval N}
    (hrest : cond → Behaves rest calcs a)
    (herr : ¬ cond → calcs = [] ∧ a = lvalErr err) : Behaves (lassert args cond err rest) calcs a := by
  unfold lassert
  split_ifs with h
  · exact hrest h
  · obtain ⟨rfl, rfl⟩ := herr h
    exact (behaves_lvalDel _).then (yields_pure _)

/-- An assertion that fails. -/
theorem behaves_lassert_neg {args : List (Lval N)} {cond : Prop} [Decidable cond] {err : String}
    {rest : Run (Lval N)} (h : ¬ cond) : Behaves (lassert args cond err rest) [] (lvalErr err) :=
  behaves_lassert (fun hcond => absurd hcond h) fun _ => ⟨rfl, rfl⟩

/-- An assertion that holds. -/
theorem lassert_pos {args : List (Lval N)} {cond : Prop} [Decidable cond] {err : String}
    {rest : Run (Lval N)} (h : cond) : lassert args cond err rest = rest := if_pos h

/-- The types of the cells behind those that were tested. -/
theorem behaves_haveType (t : LvalType) (pre l : List (Lval N)) :
    Behaves (haveType t (pre ++ l) pre.length l.length) [] (decide (∀ x ∈ l, x.type = t)) := by
  induction l generalizing pre with
  | nil =>
      have hall : decide (∀ x ∈ ([] : List (Lval N)), x.type = t) = true := by simp
      rw [hall]
      exact yields_pure true
  | cons x l ih =>
      apply (behaves_cellAt (x := x) (by simp)).then
      by_cases htype : x.type = t
      · have hall : decide (∀ y ∈ x :: l, y.type = t) = decide (∀ y ∈ l, y.type = t) := by
          simp [htype]
        have hih := ih (pre ++ [x])
        rw [List.append_assoc, List.length_append] at hih
        rw [if_pos htype, hall]
        exact hih
      · have hall : decide (∀ y ∈ x :: l, y.type = t) = false := by simp [htype]
        rw [if_neg htype, hall]
        exact yields_pure false

/-- The types of all cells. -/
theorem behaves_haveType_all (t : LvalType) (l : List (Lval N)) :
    Behaves (haveType t l 0 l.length) [] (decide (∀ x ∈ l, x.type = t)) :=
  behaves_haveType t [] l

/-! ## The functions of the language -/

/-- A value of the type of quoted lists is one. -/
theorem type_eq_qexpr {x : Lval N} (h : x.type = .qexpr) : ∃ l, x = .qexpr l := by
  cases x with
  | qexpr l => exact ⟨l, rfl⟩
  | _ => exact absurd h LvalType.noConfusion

/-- A value of the type of numbers is one. -/
theorem type_eq_num {x : Lval N} (h : x.type = .num) : ∃ n, x = .num n := by
  cases x with
  | num n => exact ⟨n, rfl⟩
  | _ => exact absurd h LvalType.noConfusion

/-- What is found at once. -/
theorem outcome_plain {g : Lval N → Option (Outcome N)} {v : Lval N} {r : Outcome N}
    (h : (Reduct.plain v).outcome g [] = some r) : r = ⟨[], v⟩ := (Option.some.inj h).symm

/-- The checks of a function of one Q-expression. -/
theorem behaves_onQexpr {tooMany wrongType : String} {f : List (Lval N) → Reduct N}
    {g : Lval N → Option (Outcome N)} {args : List (Lval N)} {rest : Run (Lval N)} {r : Outcome N}
    (h : (onQexpr tooMany wrongType f args).outcome g [] = some r)
    (hrest : ∀ cell, args = [.qexpr cell] → (f cell).outcome g [] = some r →
      Behaves rest r.calcs r.value) :
    Behaves (lassert args (args.length = 1) tooMany do
      let x ← cellAt args 0
      lassert args (x.type = .qexpr) wrongType rest) r.calcs r.value := by
  match args with
  | [] =>
      rw [outcome_plain h]
      exact behaves_lassert_neg (by simp)
  | [x] =>
      rw [lassert_pos (List.length_singleton)]
      apply (behaves_cellAt rfl).then
      by_cases hx : x.type = .qexpr
      · rw [lassert_pos hx]
        obtain ⟨cell, rfl⟩ := type_eq_qexpr hx
        exact hrest cell rfl h
      · have heq : onQexpr tooMany wrongType f [x] = .plain (lvalErr wrongType) := by
          cases x with
          | qexpr cell => exact absurd rfl hx
          | _ => rfl
        rw [heq] at h
        rw [outcome_plain h]
        exact behaves_lassert_neg hx
  | x :: y :: l =>
      have heq : onQexpr tooMany wrongType f (x :: y :: l) = .plain (lvalErr tooMany) := by
        cases x <;> rfl
      rw [heq] at h
      rw [outcome_plain h]
      exact behaves_lassert_neg (by simp)

/-- All cells behind the first one are deleted. -/
theorem behaves_dropCells (x : Lval N) (l : List (Lval N)) :
    Behaves (dropCells (l.length + 1) (x :: l)) [] [x] := by
  induction l with
  | nil => exact yields_pure _
  | cons y l ih =>
      apply (behaves_lvalPop (x := y) rfl).then
      apply (behaves_lvalDel y).then
      exact ih

/-- `head` does what the language says. -/
theorem behaves_builtinHead {g : Lval N → Option (Outcome N)} {args : List (Lval N)} {r : Outcome N}
    (h : (onQexpr "Function 'head' passed too many arguments."
      "Function 'head' passed incorrect type." (fun l => .plain (headOf l)) args).outcome g [] =
        some r) : Behaves (builtinHead args) r.calcs r.value := by
  apply behaves_onQexpr h
  rintro cell rfl hcell
  rw [outcome_plain hcell]
  apply (behaves_cellAt rfl).then
  apply (behaves_cells cell).then
  cases cell with
  | nil => exact behaves_lassert_neg (by simp)
  | cons x l =>
      rw [lassert_pos (by simp)]
      apply (behaves_lvalTake rfl).then
      apply (behaves_cells _).then
      apply (behaves_dropCells x l).then
      exact yields_pure _

/-- `tail` does what the language says. -/
theorem behaves_builtinTail {g : Lval N → Option (Outcome N)} {args : List (Lval N)} {r : Outcome N}
    (h : (onQexpr "Function 'tail' passed too many arguments."
      "Function 'tail' passed incorrect type." (fun l => .plain (tailOf l)) args).outcome g [] =
        some r) : Behaves (builtinTail args) r.calcs r.value := by
  apply behaves_onQexpr h
  rintro cell rfl hcell
  rw [outcome_plain hcell]
  apply (behaves_cellAt rfl).then
  apply (behaves_cells cell).then
  cases cell with
  | nil => exact behaves_lassert_neg (by simp)
  | cons x l =>
      rw [lassert_pos (by simp)]
      apply (behaves_lvalTake rfl).then
      apply (behaves_cells _).then
      apply (behaves_lvalPop_zero x l).then
      apply (behaves_lvalDel x).then
      exact yields_pure _

/-- The second loop of `join` appends the cells of all Q-expressions. -/
theorem behaves_joinAll (x : List (Lval N)) {l : List (Lval N)} (h : ∀ y ∈ l, y.type = .qexpr) :
    Behaves (joinAll l.length x l) [] (x ++ l.flatMap Lval.quoted, []) := by
  induction l generalizing x with
  | nil =>
      rw [List.flatMap_nil, List.append_nil]
      exact yields_pure _
  | cons y l ih =>
      obtain ⟨cell, rfl⟩ := type_eq_qexpr (h y List.mem_cons_self)
      have hih := ih (x ++ cell) fun z hz => h z (List.mem_cons_of_mem _ hz)
      rw [List.flatMap_cons, ← List.append_assoc]
      apply (behaves_lvalPop_zero _ l).then
      apply (behaves_cells cell).then
      apply (behaves_lvalJoin x cell).then
      exact hih

/-- `join` does what the language says. -/
theorem behaves_builtinJoin {args : List (Lval N)} (hne : args ≠ []) :
    Behaves (builtinJoin args) []
      (if ∀ x ∈ args, x.type = .qexpr then .qexpr (args.flatMap Lval.quoted)
        else lvalErr "Function 'join' passed incorrect type.") := by
  apply (behaves_haveType_all .qexpr args).then
  apply behaves_lassert
  · intro htyped
    have hall := of_decide_eq_true htyped
    rw [if_pos hall]
    obtain ⟨x, l, rfl⟩ := List.exists_cons_of_ne_nil hne
    obtain ⟨cell, rfl⟩ := type_eq_qexpr (hall x List.mem_cons_self)
    apply (behaves_lvalPop_zero _ l).then
    apply (behaves_cells cell).then
    refine (behaves_joinAll cell fun y hy => hall y (List.mem_cons_of_mem _ hy)).then ?_
    apply (behaves_lvalDel _).then
    exact yields_pure _
  · intro htyped
    rw [decide_eq_true_eq] at htyped
    rw [if_neg htyped]
    exact ⟨rfl, rfl⟩

/-! ## Operators -/

/-- A calculation that fits has the exact result. -/
theorem behaves_perform (A : Arith N) {c : Calc} (h : (Event.calculate c).Safe) :
    Behaves (A.perform c) [c] (A.ofInt c.exact) :=
  (yields_emit Event.calc? h).bind (yields_pure _)

/-- A calculation whose condition holds is done. -/
theorem behaves_performIf_pos (A : Arith N) {cond : Prop} [Decidable cond] {c : Calc} {x : N}
    (hcond : cond) (h : (Event.calculate c).Safe) :
    Behaves (A.performIf cond c x) [c] (A.ofInt c.exact) := by
  unfold Arith.performIf
  rw [if_pos hcond]
  exact behaves_perform A h

/-- A calculation whose condition does not hold is left out. -/
theorem behaves_performIf_neg (A : Arith N) {cond : Prop} [Decidable cond] {c : Calc} {x : N}
    (hcond : ¬ cond) : Behaves (A.performIf cond c x) [] x := by
  unfold Arith.performIf
  rw [if_neg hcond]
  exact yields_pure x

/-- One operand: the calculation of the operator is made. -/
theorem behaves_applyOp (A : Arith N) {op : Bytes} {x y : N}
    (hzero : ¬ (op = ascii "/" ∧ A.toInt y = 0)) :
    match calcOf op (A.toInt x) (A.toInt y) with
    | none => Behaves (applyOp A op x y) [] (some x)
    | some c => Behaves (applyOp A op x y) [c] (some (A.ofInt c.exact)) := by
  unfold calcOf
  by_cases hadd : op = ascii "+"
  · subst hadd
    show Behaves (applyOp A (ascii "+") x y) [.add (A.toInt x) (A.toInt y)] _
    apply (behaves_performIf_pos A rfl (by trivial)).silent
    apply (behaves_performIf_neg A (by decide)).then
    apply (behaves_performIf_neg A (by decide)).then
    exact yields_pure _
  rw [if_neg hadd]
  by_cases hsub : op = ascii "-"
  · subst hsub
    show Behaves (applyOp A (ascii "-") x y) [.sub (A.toInt x) (A.toInt y)] _
    apply (behaves_performIf_neg A hadd).then
    apply (behaves_performIf_pos A rfl (by trivial)).silent
    apply (behaves_performIf_neg A (by decide)).then
    exact yields_pure _
  rw [if_neg hsub]
  by_cases hmul : op = ascii "*"
  · subst hmul
    show Behaves (applyOp A (ascii "*") x y) [.mul (A.toInt x) (A.toInt y)] _
    apply (behaves_performIf_neg A hadd).then
    apply (behaves_performIf_neg A hsub).then
    apply (behaves_performIf_pos A rfl (by trivial)).silent
    exact yields_pure _
  rw [if_neg hmul]
  by_cases hdiv : op = ascii "/"
  · have hy : A.toInt y ≠ 0 := fun hy => hzero ⟨hdiv, hy⟩
    rw [if_pos hdiv]
    show Behaves (applyOp A op x y) [.div (A.toInt x) (A.toInt y)] _
    apply (behaves_performIf_neg A hadd).then
    apply (behaves_performIf_neg A hsub).then
    apply (behaves_performIf_neg A hmul).then
    rw [if_pos hdiv, if_neg hy]
    have hdivide : Behaves (A.perform (.div (A.toInt x) (A.toInt y)))
        [.div (A.toInt x) (A.toInt y)] _ := behaves_perform A hy
    exact hdivide.silent (yields_pure _)
  · rw [if_neg hdiv]
    show Behaves (applyOp A op x y) [] _
    apply (behaves_performIf_neg A hadd).then
    apply (behaves_performIf_neg A hsub).then
    apply (behaves_performIf_neg A hmul).then
    rw [if_neg hdiv]
    exact yields_pure _

/-- A division by zero makes no calculation. -/
theorem behaves_applyOp_zero (A : Arith N) {x y : N} (hy : A.toInt y = 0) :
    Behaves (applyOp A (ascii "/") x y) [] none := by
  unfold applyOp
  apply (behaves_performIf_neg A (by decide)).then
  apply (behaves_performIf_neg A (by decide)).then
  apply (behaves_performIf_neg A (by decide)).then
  rw [if_pos rfl, if_pos hy]
  exact yields_pure none

/-- The loop of the operators calculates from the left to the right. -/
theorem behaves_foldOp (A : Arith N) (op : Bytes) (x : N) (ys : List N) :
    ∃ rest, Behaves (foldOp A op ys.length x (ys.map Lval.num)) (operate A op x ys).calcs
      ((operate A op x ys).value, rest) := by
  induction ys generalizing x with
  | nil => exact ⟨_, yields_pure _⟩
  | cons y ys ih =>
      rw [operate]
      split_ifs with hzero
      · obtain ⟨rfl, hy⟩ := hzero
        refine ⟨ys.map Lval.num, (behaves_lvalPop_zero _ _).then ?_⟩
        apply (yields_pure y).then
        apply (behaves_applyOp_zero A hy).then
        exact (behaves_lvalDel _).then ((behaves_lvalDel _).then (yields_pure _))
      · have happly := behaves_applyOp A (x := x) hzero
        cases hcalc : calcOf op (A.toInt x) (A.toInt y) with
        | none =>
            rw [hcalc] at happly
            obtain ⟨rest, hrest⟩ := ih x
            refine ⟨rest, (behaves_lvalPop_zero _ _).then ?_⟩
            apply (yields_pure y).then
            apply happly.then
            exact (behaves_lvalDel _).then hrest
        | some c =>
            rw [hcalc] at happly
            obtain ⟨rest, hrest⟩ := ih (A.ofInt c.exact)
            refine ⟨rest, (behaves_lvalPop_zero _ _).then ?_⟩
            apply (yields_pure y).then
            apply happly.bind
            exact (behaves_lvalDel _).then hrest

/-- The numbers in a list of numbers. -/
theorem filterMap_num (ns : List N) : (ns.map Lval.num).filterMap Lval.num? = ns := by
  induction ns with
  | nil => rfl
  | cons n ns ih =>
      rw [List.map_cons, List.filterMap_cons, ih]
      rfl

/-- Values that are all numbers come from numbers. -/
theorem eq_map_num {l : List (Lval N)} (h : ∀ x ∈ l, x.type = .num) :
    ∃ ns : List N, l = ns.map Lval.num := by
  induction l with
  | nil => exact ⟨[], rfl⟩
  | cons x l ih =>
      obtain ⟨n, rfl⟩ := type_eq_num (h x List.mem_cons_self)
      obtain ⟨ns, rfl⟩ := ih fun y hy => h y (List.mem_cons_of_mem _ hy)
      exact ⟨n :: ns, rfl⟩

/-- The operators do what the language says. -/
theorem behaves_builtinOp (A : Arith N) (op : Bytes) {args : List (Lval N)} (hne : args ≠ [])
    {r : Outcome N} (h : (if ∀ x ∈ args, x.type = .num then
      .done (operateAll A op (args.filterMap Lval.num?))
      else .plain (lvalErr "Cannot operate on non-number!") : Reduct N) = .done r) :
    Behaves (builtinOp A args op) r.calcs r.value := by
  apply (behaves_haveType_all .num args).then
  by_cases hall : ∀ x ∈ args, x.type = .num
  · rw [if_pos hall] at h
    obtain ⟨ns, rfl⟩ := eq_map_num hall
    rw [filterMap_num] at h
    obtain rfl := Reduct.done.inj h
    rw [lassert_pos (decide_eq_true hall)]
    cases ns with
    | nil => exact absurd rfl hne
    | cons x ys =>
        rw [operateAll]
        apply (behaves_lvalPop_zero _ _).then
        apply (yields_pure x).then
        split_ifs with hneg
        · obtain ⟨hop, rfl⟩ := hneg
          apply (behaves_performIf_pos A ⟨hop, rfl⟩ (by trivial)).silent
          apply (yields_pure _).then
          exact (behaves_lvalDel _).then (yields_pure _)
        · have hlen : ¬ (op = ascii "-" ∧ (ys.map Lval.num).length = 0) := by
            rw [List.length_map, List.length_eq_zero_iff]
            exact hneg
          obtain ⟨rest, hrest⟩ := behaves_foldOp A op x ys
          rw [← List.length_map Lval.num] at hrest
          apply (behaves_performIf_neg A hlen).then
          exact hrest.silent ((behaves_lvalDel _).then (yields_pure _))
  · rw [if_neg hall] at h
    obtain rfl := Reduct.done.inj h
    have hfalse : ¬ (decide (∀ x ∈ args, x.type = .num)) = true := by
      rw [decide_eq_true_eq]
      exact hall
    exact behaves_lassert_neg hfalse

/-- An evaluator that finds what `g` says, on the trees that have a meaning there. -/
def Finds (f : Lval N → Run (Lval N)) (g : Lval N → Option (Outcome N)) : Prop :=
  ∀ v r, g v = some r → Behaves (f v) r.calcs r.value

/-- `eval` does what the language says. -/
theorem behaves_builtinEval {f : Lval N → Run (Lval N)} {g : Lval N → Option (Outcome N)}
    (hf : Finds f g) {args : List (Lval N)} {r : Outcome N}
    (h : (onQexpr "Function 'eval' passed too many arguments."
      "Function 'eval' passed incorrect type." .again args).outcome g [] = some r) :
    Behaves (builtinEval f args) r.calcs r.value := by
  apply behaves_onQexpr h
  rintro cell rfl hcell
  obtain ⟨v, hv, hr⟩ := Option.bind_eq_some_iff.mp hcell
  obtain rfl := Option.some.inj hr
  apply (behaves_lvalTake rfl).then
  apply (yields_pure (Lval.sexpr cell)).then
  exact hf _ _ hv

/-- **The functions of the language** do what their meaning says. -/
theorem behaves_builtin (A : Arith N) {f : Lval N → Run (Lval N)} {g : Lval N → Option (Outcome N)}
    (hf : Finds f g) {func : Bytes} {args : List (Lval N)} (hne : args ≠ []) {r : Outcome N}
    (h : (apply A func args).outcome g [] = some r) :
    Behaves (builtin A f args func) r.calcs r.value := by
  unfold apply at h
  unfold builtin
  by_cases hlist : ascii "list" = func
  · rw [if_pos hlist] at h ⊢
    rw [outcome_plain h]
    exact yields_pure _
  rw [if_neg hlist] at h ⊢
  by_cases hhead : ascii "head" = func
  · rw [if_pos hhead] at h ⊢
    exact behaves_builtinHead h
  rw [if_neg hhead] at h ⊢
  by_cases htail : ascii "tail" = func
  · rw [if_pos htail] at h ⊢
    exact behaves_builtinTail h
  rw [if_neg htail] at h ⊢
  by_cases hjoin : ascii "join" = func
  · rw [if_pos hjoin] at h ⊢
    have hbehaves := behaves_builtinJoin hne
    split_ifs at h hbehaves with hall
    · rw [outcome_plain h]
      exact hbehaves
    · rw [outcome_plain h]
      exact hbehaves
  rw [if_neg hjoin] at h ⊢
  by_cases heval : ascii "eval" = func
  · rw [if_pos heval] at h ⊢
    exact behaves_builtinEval hf h
  rw [if_neg heval] at h ⊢
  by_cases hop : (strstr func (ascii "+-/*")).isSome
  · rw [if_pos hop] at h ⊢
    apply behaves_builtinOp A func hne
    split_ifs at h ⊢ with hall
    · exact congrArg Reduct.done (Option.some.inj h)
    · exact congrArg Reduct.done (Option.some.inj h)
  · rw [if_neg hop] at h ⊢
    rw [outcome_plain h]
    exact (behaves_lvalDel _).then (yields_pure _)

/-! ## Evaluation -/

/-- The loop over the cells evaluates those behind the ones that are evaluated. -/
theorem behaves_evalCells {f : Lval N → Run (Lval N)} {g : Lval N → Option (Outcome N)}
    (hf : Finds f g) (pre : List (Lval N)) {l : List (Lval N)} {rs : List Calc × List (Lval N)}
    (h : denoteAll g l = some rs) :
    Behaves (evalCells f (pre ++ l) pre.length l.length) rs.1 (pre ++ rs.2) := by
  induction l generalizing pre rs with
  | nil =>
      obtain rfl := Option.some.inj h
      exact yields_pure _
  | cons x l ih =>
      obtain ⟨r, hr, htail⟩ := Option.bind_eq_some_iff.mp h
      obtain ⟨rs', hrs, heq⟩ := Option.bind_eq_some_iff.mp htail
      obtain rfl := Option.some.inj heq
      have hset : (pre ++ x :: l).set pre.length r.value = (pre ++ [r.value]) ++ l := by
        rw [List.set_append_right _ _ (Nat.le_refl _), Nat.sub_self, List.set_cons_zero,
          List.append_assoc, List.singleton_append]
      have hih := ih (pre ++ [r.value]) hrs
      simp only [List.append_assoc, List.singleton_append, List.length_append] at hih
      apply (behaves_cellAt (x := x) (by simp)).then
      apply (hf x r hr).bind
      apply (behaves_setCell (by simp) r.value).then
      rw [hset, List.append_assoc, List.singleton_append]
      exact hih

/-- The first error behind the cells that are none. -/
theorem behaves_firstErr (pre l : List (Lval N)) :
    match l.find? fun x => x.type = .err with
    | none => Behaves (firstErr (pre ++ l) pre.length l.length) [] none
    | some e => ∃ i, (pre ++ l)[i]? = some e ∧
        Behaves (firstErr (pre ++ l) pre.length l.length) [] (some i) := by
  induction l generalizing pre with
  | nil => exact yields_pure none
  | cons x l ih =>
      have hat : Behaves (cellAt (pre ++ x :: l) pre.length) [] x := behaves_cellAt (by simp)
      have hih := ih (pre ++ [x])
      rw [List.append_assoc, List.singleton_append, List.length_append] at hih
      rw [List.find?_cons]
      by_cases herr : x.type = .err
      · rw [decide_eq_true herr]
        refine ⟨pre.length, by simp, hat.then ?_⟩
        rw [if_pos herr]
        exact yields_pure _
      · rw [decide_eq_false herr]
        have hstep : ∀ o, Behaves (firstErr (pre ++ x :: l) (pre.length + 1) l.length) [] o →
            Behaves (firstErr (pre ++ x :: l) pre.length (l.length + 1)) [] o := by
          intro o ho
          apply hat.then
          rw [if_neg herr]
          exact ho
        dsimp only
        cases hfind : l.find? fun x => x.type = .err with
        | none =>
            rw [hfind] at hih
            exact hstep none hih
        | some e =>
            rw [hfind] at hih
            obtain ⟨i, hi, hbehaves⟩ := hih
            exact ⟨i, hi, hstep (some i) hbehaves⟩

/-- The calculations for the cells stand in front of those of the reduction. -/
theorem outcome_calcs {g : Lval N → Option (Outcome N)} {s : Reduct N} {calcs : List Calc}
    {r : Outcome N} (h : s.outcome g calcs = some r) :
    ∃ r', s.outcome g [] = some r' ∧ r = ⟨calcs ++ r'.calcs, r'.value⟩ := by
  cases s with
  | done r' => exact ⟨r', rfl, (Option.some.inj h).symm⟩
  | again cell =>
      obtain ⟨v, hv, hr⟩ := Option.bind_eq_some_iff.mp h
      refine ⟨v, ?_, (Option.some.inj hr).symm⟩
      rw [Reduct.outcome, hv]
      rfl

/-- An S-expression is reduced as its meaning says. -/
theorem behaves_lvalEvalSexpr (A : Arith N) {f : Lval N → Run (Lval N)}
    {g : Lval N → Option (Outcome N)} (hf : Finds f g) {cell : List (Lval N)}
    {args : List Calc × List (Lval N)} (hargs : denoteAll g cell = some args) {r : Outcome N}
    (h : (reduce A args.2).outcome g args.1 = some r) :
    Behaves (lvalEvalSexpr A f cell) r.calcs r.value := by
  obtain ⟨r, hreduce, rfl⟩ := outcome_calcs h
  obtain ⟨calcs, v⟩ := args
  apply (behaves_evalCells hf [] hargs).bind
  have hfirst := behaves_firstErr [] v
  unfold reduce at hreduce
  dsimp only [List.nil_append] at hreduce hfirst ⊢
  cases hfind : v.find? fun x => x.type = .err with
  | some e =>
      rw [hfind] at hfirst hreduce
      obtain ⟨i, hi, hbehaves⟩ := hfirst
      rw [outcome_plain hreduce]
      exact hbehaves.then (behaves_lvalTake hi)
  | none =>
      rw [hfind] at hfirst hreduce
      apply hfirst.then
      match v with
      | [] =>
          rw [outcome_plain hreduce]
          exact yields_pure _
      | [x] =>
          have heq : r = ⟨[], x⟩ := outcome_plain hreduce
          rw [heq]
          exact behaves_lvalTake rfl
      | x :: y :: l =>
          dsimp only
          rw [if_neg (by simp), if_neg (by simp)]
          apply (behaves_lvalPop_zero x (y :: l)).then
          cases x with
          | sym func =>
              have hbuiltin := behaves_builtin A hf (List.cons_ne_nil y l) hreduce
              exact hbuiltin.silent ((behaves_lvalDel _).then (yields_pure _))
          | num n =>
              rw [outcome_plain hreduce]
              exact (behaves_lvalDel _).then ((behaves_lvalDel _).then (yields_pure _))
          | err e =>
              rw [outcome_plain hreduce]
              exact (behaves_lvalDel _).then ((behaves_lvalDel _).then (yields_pure _))
          | sexpr c =>
              rw [outcome_plain hreduce]
              exact (behaves_lvalDel _).then ((behaves_lvalDel _).then (yields_pure _))
          | qexpr c =>
              rw [outcome_plain hreduce]
              exact (behaves_lvalDel _).then ((behaves_lvalDel _).then (yields_pure _))

/-- **The evaluator finds the meaning** of every tree that has one within its depth. -/
theorem behaves_lvalEval (A : Arith N) (depth : ℕ) : Finds (lvalEval A depth) (denote A depth) := by
  induction depth with
  | zero =>
      intro v r h
      exact absurd h (by simp [denote])
  | succ depth ih =>
      intro v r h
      cases v with
      | sexpr cell =>
          rw [denote] at h
          obtain ⟨args, hargs, hreduce⟩ := Option.bind_eq_some_iff.mp h
          exact behaves_lvalEvalSexpr A ih hargs hreduce
      | num n =>
          obtain rfl := Option.some.inj h
          exact yields_pure _
      | err e =>
          obtain rfl := Option.some.inj h
          exact yields_pure _
      | sym s =>
          obtain rfl := Option.some.inj h
          exact yields_pure _
      | qexpr c =>
          obtain rfl := Option.some.inj h
          exact yields_pure _

/-- A depth of the size of a tree is enough for it. -/
theorem behaves_of_nodes_le (A : Arith N) {v : Lval N} {depth : ℕ} (h : v.nodes ≤ depth) :
    Behaves (lvalEval A depth v) (meaning A v).calcs (meaning A v).value :=
  behaves_lvalEval A depth v _ ((settled_meaning A v).denote depth h)

/-! ## Every tree -/

/-- **Evaluation terminates and never grows a tree**, whatever a calculation that does not fit gives. -/
theorem lvalEval_terminates (A : Arith N) (v : Lval N) :
    ∃ r, (∀ depth, v.nodes ≤ depth → (lvalEval A depth v).result = .ok r) ∧ r.nodes ≤ v.nodes :=
  ⟨(meaning A v).value, fun _ h => (behaves_of_nodes_le A h).result, (settled_meaning A v).nodes⟩

/-- A value is evaluated to itself. -/
theorem result_of_normal (A : Arith N) {v : Lval N} (h : v.Normal) (depth : ℕ) :
    (lvalEval A (depth + 1) v).result = .ok v := by
  cases v with
  | sexpr cell =>
      cases cell with
      | nil => rfl
      | cons x l => exact absurd h id
  | _ => rfl

/-- **What evaluation returns is a value**, never an S-expression with cells, and to evaluate it again
changes nothing. -/
theorem lvalEval_idempotent (A : Arith N) (v : Lval N) :
    ∃ r, (∀ depth, v.nodes ≤ depth → (lvalEval A depth v).result = .ok r) ∧ r.Normal ∧
      ∀ depth, r.nodes ≤ depth → (lvalEval A depth r).result = .ok r := by
  have hnormal := (settled_meaning A v).normal
  refine ⟨(meaning A v).value, fun _ h => (behaves_of_nodes_le A h).result, hnormal, ?_⟩
  intro depth hdepth
  obtain ⟨depth, rfl⟩ : ∃ d, depth = d + 1 :=
    ⟨depth - 1, by have hpos := (meaning A v).value.nodes_pos; omega⟩
  exact result_of_normal A hnormal depth

/-- **All accesses are safe**: every cell that is accessed is there, every count that is read of a cell
is that of a Q-expression, and no number is taken from a tree that is none. -/
theorem lvalEval_safe (A : Arith N) (v : Lval N) (depth : ℕ) (h : v.nodes ≤ depth) :
    (∀ i count, Event.cell i count ∈ (lvalEval A depth v).log → i < count) ∧
      (∀ t, Event.count t ∈ (lvalEval A depth v).log → t = .qexpr) ∧
      (lvalEval A depth v).result ≠ .error .fault := by
  have hbehaves := behaves_of_nodes_le A h
  refine ⟨fun i count hmem => hbehaves.log _ hmem, fun t hmem => hbehaves.log _ hmem, ?_⟩
  intro hfault
  rw [hbehaves.result] at hfault
  cases hfault

/-- `(join {1} {2})` accesses cells and counts. -/
theorem lvalEval_safe_join :
    Event.cell 0 3 ∈ (lvalEval long 6 (.sexpr [.sym (ascii "join"), .qexpr [.num 1],
      .qexpr [.num 2]])).log ∧ 0 < 3 := by
  have hmem : Event.cell 0 3 ∈ (lvalEval long 6 (.sexpr [.sym (ascii "join"), .qexpr [.num 1],
      .qexpr [.num 2]])).log := List.mem_cons_self
  exact ⟨hmem, (lvalEval_safe long _ 6 (by simp [Lval.nodes, nodesAll])).1 0 3 hmem⟩

end Asenal.Lisp
