import Asenal.Lisp.Eval

/-!
# What the language means

The meaning of an expression tree, without cells that are counted and popped: its parts are evaluated,
what they come to is reduced, and a Q-expression that is handed to `eval` is evaluated in turn.

* `reduce_normal`, `nodes_reduce` — a reduction keeps values, and never grows a tree.
* `denote_total` — so every tree has a meaning, which is a value and no larger than the tree.
-/

namespace Asenal.Lisp

open Asenal.Lib.Text Asenal.Lib.CString

variable {N : Type}

/-! ## Size and values -/

mutual

/-- The number of nodes of a tree. -/
def Lval.nodes : Lval N → ℕ
  | .num _ => 1
  | .err _ => 1
  | .sym _ => 1
  | .sexpr cell => 1 + nodesAll cell
  | .qexpr cell => 1 + nodesAll cell

/-- The number of nodes of some trees. -/
def nodesAll : List (Lval N) → ℕ
  | [] => 0
  | x :: l => x.nodes + nodesAll l

end

/-- Each value has a node. -/
theorem Lval.nodes_pos (v : Lval N) : 0 < v.nodes := by
  cases v <;> simp [Lval.nodes]

/-- The nodes of two lists. -/
@[simp] theorem nodesAll_append (l m : List (Lval N)) :
    nodesAll (l ++ m) = nodesAll l + nodesAll m := by
  induction l with
  | nil => simp [nodesAll]
  | cons x l ih => simp [nodesAll, ih, Nat.add_assoc]

/-- A value has no more nodes than its list. -/
theorem nodes_le_nodesAll {x : Lval N} {l : List (Lval N)} (h : x ∈ l) : x.nodes ≤ nodesAll l := by
  obtain ⟨l₁, l₂, rfl⟩ := List.append_of_mem h
  rw [nodesAll_append, nodesAll]
  omega

/-- A tree that evaluates to itself: no S-expression, except the empty one. -/
def Lval.Normal : Lval N → Prop
  | .sexpr (_ :: _) => False
  | _ => True

/-! ## The functions of the language -/

/-- The cells of a Q-expression. -/
def Lval.quoted : Lval N → List (Lval N)
  | .qexpr cell => cell
  | _ => []

/-- The number of a tree that is one. -/
def Lval.num? : Lval N → Option N
  | .num n => some n
  | _ => none

/-- The calculation that an operator makes; symbols like `+-` are taken for operators that make
none. -/
def calcOf (op : Bytes) (x y : ℤ) : Option Calc :=
  if op = ascii "+" then some (.add x y)
  else if op = ascii "-" then some (.sub x y)
  else if op = ascii "*" then some (.mul x y)
  else if op = ascii "/" then some (.div x y)
  else none

/-- A tree, and the calculations that were made for it. -/
structure Outcome (N : Type) where
  calcs : List Calc
  value : Lval N

/-- An operator between a number and those behind it, from the left to the right. -/
def operate (A : Arith N) (op : Bytes) (x : N) : List N → Outcome N
  | [] => ⟨[], .num x⟩
  | y :: ys =>
      if op = ascii "/" ∧ A.toInt y = 0 then ⟨[], lvalErr "Division By Zero."⟩
      else
        match calcOf op (A.toInt x) (A.toInt y) with
        | none => operate A op x ys
        | some c =>
            let r := operate A op (A.ofInt c.exact) ys
            ⟨c :: r.calcs, r.value⟩

/-- An operator on some numbers. -/
def operateAll (A : Arith N) (op : Bytes) : List N → Outcome N
  | [] => ⟨[], lvalErr "Cannot operate on non-number!"⟩
  | x :: ys =>
      if op = ascii "-" ∧ ys = [] then
        ⟨[.neg (A.toInt x)], .num (A.ofInt (Calc.neg (A.toInt x)).exact)⟩
      else operate A op x ys

/-- What an S-expression whose cells are evaluated comes to: an outcome, or an S-expression that is
evaluated in turn. -/
inductive Reduct (N : Type)
  | done (r : Outcome N)
  | again (cell : List (Lval N))

/-- A tree that is there without a calculation. -/
def Reduct.plain (v : Lval N) : Reduct N := .done ⟨[], v⟩

/-- A function of one Q-expression, and what it says of other arguments. -/
def onQexpr (tooMany wrongType : String) (f : List (Lval N) → Reduct N) : List (Lval N) → Reduct N
  | [.qexpr l] => f l
  | [_] => .plain (lvalErr wrongType)
  | _ => .plain (lvalErr tooMany)

/-- The list of the first value. -/
def headOf : List (Lval N) → Lval N
  | [] => lvalErr "Function 'head' passed \x7b\x7d."
  | x :: _ => .qexpr [x]

/-- The list of the other values. -/
def tailOf : List (Lval N) → Lval N
  | [] => lvalErr "Function 'tail' passed \x7b\x7d."
  | _ :: l => .qexpr l

/-- A function of the language on its arguments. -/
def apply (A : Arith N) (func : Bytes) (args : List (Lval N)) : Reduct N :=
  if ascii "list" = func then .plain (.qexpr args)
  else if ascii "head" = func then
    onQexpr "Function 'head' passed too many arguments." "Function 'head' passed incorrect type."
      (fun l => .plain (headOf l)) args
  else if ascii "tail" = func then
    onQexpr "Function 'tail' passed too many arguments." "Function 'tail' passed incorrect type."
      (fun l => .plain (tailOf l)) args
  else if ascii "join" = func then
    if ∀ x ∈ args, x.type = .qexpr then .plain (.qexpr (args.flatMap Lval.quoted))
    else .plain (lvalErr "Function 'join' passed incorrect type.")
  else if ascii "eval" = func then
    onQexpr "Function 'eval' passed too many arguments." "Function 'eval' passed incorrect type."
      .again args
  else if (strstr func (ascii "+-/*")).isSome then
    if ∀ x ∈ args, x.type = .num then .done (operateAll A func (args.filterMap Lval.num?))
    else .plain (lvalErr "Cannot operate on non-number!")
  else .plain (lvalErr "Unknown Function!")

/-- The reduction of an S-expression whose cells are evaluated: the first error, the only cell, or a
function on its arguments. -/
def reduce (A : Arith N) (cell : List (Lval N)) : Reduct N :=
  match cell.find? fun x => x.type = .err with
  | some e => .plain e
  | none =>
      match cell with
      | [] => .plain (.sexpr [])
      | [x] => .plain x
      | .sym func :: args => apply A func args
      | _ => .plain (lvalErr "S-expression Does not start with symbol.")

/-! ## Meaning -/

/-- The meanings of some trees, and the calculations for all of them. -/
def denoteAll (f : Lval N → Option (Outcome N)) : List (Lval N) → Option (List Calc × List (Lval N))
  | [] => some ([], [])
  | x :: l => do
      let r ← f x
      let rs ← denoteAll f l
      some (r.calcs ++ rs.1, r.value :: rs.2)

/-- The outcome of a reduction, behind the calculations for the cells. -/
def Reduct.outcome (f : Lval N → Option (Outcome N)) (calcs : List Calc) :
    Reduct N → Option (Outcome N)
  | .done r => some ⟨calcs ++ r.calcs, r.value⟩
  | .again cell => do
      let r ← f (.sexpr cell)
      some ⟨calcs ++ r.calcs, r.value⟩

/-- The meaning of a tree, if it is found within a depth. -/
def denote (A : Arith N) : ℕ → Lval N → Option (Outcome N)
  | 0, _ => none
  | depth + 1, .sexpr cell => do
      let args ← denoteAll (denote A depth) cell
      (reduce A args.2).outcome (denote A depth) args.1
  | _ + 1, v => some ⟨[], v⟩

/-- The meaning of a tree; its size is a depth that is enough. -/
def meaning (A : Arith N) (v : Lval N) : Outcome N :=
  (denote A v.nodes v).getD ⟨[], v⟩

/-! ## A reduction keeps values and never grows a tree -/

/-- The value of an operator is a number or an error. -/
theorem operate_value (A : Arith N) (op : Bytes) (x : N) (ys : List N) :
    (∃ n, (operate A op x ys).value = .num n) ∨ ∃ e, (operate A op x ys).value = .err e := by
  induction ys generalizing x with
  | nil => exact Or.inl ⟨x, rfl⟩
  | cons y ys ih =>
      rw [operate]
      split_ifs with hzero
      · exact Or.inr ⟨_, rfl⟩
      · cases calcOf op (A.toInt x) (A.toInt y) with
        | none => exact ih x
        | some c => exact ih (A.ofInt c.exact)

/-- An operation gives a number or an error. -/
theorem operateAll_value (A : Arith N) (op : Bytes) (ns : List N) :
    (∃ n, (operateAll A op ns).value = .num n) ∨ ∃ e, (operateAll A op ns).value = .err e := by
  cases ns with
  | nil => exact Or.inr ⟨_, rfl⟩
  | cons x ys =>
      rw [operateAll]
      split_ifs with hneg
      · exact Or.inl ⟨_, rfl⟩
      · exact operate_value A op x ys

/-- Unquoted lists have no more nodes. -/
theorem nodesAll_quoted (args : List (Lval N)) :
    nodesAll (args.flatMap Lval.quoted) ≤ nodesAll args := by
  induction args with
  | nil => exact Nat.le_refl 0
  | cons x args ih =>
      have hx : nodesAll x.quoted ≤ x.nodes := by
        cases x <;> simp [Lval.quoted, Lval.nodes, nodesAll]
      rw [List.flatMap_cons, nodesAll_append, nodesAll]
      exact Nat.add_le_add hx ih

/-- What a reduction may come to, from `k` nodes: a value that has no more, or an S-expression that has
less. -/
def Reduct.Within (k : ℕ) : Reduct N → Prop
  | .done r => r.value.Normal ∧ r.value.nodes ≤ k
  | .again cell => (Lval.sexpr cell).nodes < k

/-- A larger bound. -/
theorem Reduct.Within.mono {k m : ℕ} {s : Reduct N} (h : s.Within k) (hle : k ≤ m) : s.Within m := by
  cases s with
  | done r => exact ⟨h.1, h.2.trans hle⟩
  | again cell => exact Nat.lt_of_lt_of_le h hle

/-- A value that is normal and small. -/
theorem within_plain {v : Lval N} {k : ℕ} (hnormal : v.Normal) (hnodes : v.nodes ≤ k) :
    (Reduct.plain v).Within k := ⟨hnormal, hnodes⟩

/-- An error is normal and small. -/
theorem within_lvalErr (m : String) {k : ℕ} (h : 0 < k) :
    (Reduct.plain (lvalErr m) : Reduct N).Within k := within_plain trivial h

/-- A function of one Q-expression, whose cells are all that is left of it. -/
theorem onQexpr_within {tooMany wrongType : String} {f : List (Lval N) → Reduct N}
    (hf : ∀ l, (f l).Within (2 + nodesAll l)) (args : List (Lval N)) :
    (onQexpr tooMany wrongType f args).Within (2 + nodesAll args) := by
  unfold onQexpr
  split
  · rename_i l
    have hl := hf l
    have hle : 2 + nodesAll l ≤ 2 + nodesAll [Lval.qexpr l] := by
      simp only [nodesAll, Lval.nodes]
      omega
    exact hl.mono hle
  · exact within_lvalErr _ (by omega)
  · exact within_lvalErr _ (by omega)

/-- **A function gives no more nodes than it gets.** -/
theorem apply_within (A : Arith N) (func : Bytes) (args : List (Lval N)) :
    (apply A func args).Within (2 + nodesAll args) := by
  have herr : ∀ m, (Reduct.plain (lvalErr m) : Reduct N).Within (2 + nodesAll args) :=
    fun m => within_lvalErr m (by omega)
  unfold apply
  split_ifs with hlist hhead htail hjoin hquoted heval hop hnum
  · exact within_plain trivial (by rw [Lval.nodes]; omega)
  · apply onQexpr_within
    intro l
    cases l with
    | nil => exact within_lvalErr _ (by omega)
    | cons x l => exact within_plain trivial (by simp only [headOf, Lval.nodes, nodesAll]; omega)
  · apply onQexpr_within
    intro l
    cases l with
    | nil => exact within_lvalErr _ (by omega)
    | cons x l => exact within_plain trivial (by simp only [tailOf, Lval.nodes, nodesAll]; omega)
  · have hle := nodesAll_quoted args
    exact within_plain trivial (by rw [Lval.nodes]; omega)
  · exact herr _
  · apply onQexpr_within
    intro l
    show (Lval.sexpr l).nodes < 2 + nodesAll l
    rw [Lval.nodes]
    omega
  · show Lval.Normal _ ∧ Lval.nodes _ ≤ _
    rcases operateAll_value A func (args.filterMap Lval.num?) with ⟨n, hn⟩ | ⟨e, he⟩
    · rw [hn]
      exact ⟨trivial, by rw [Lval.nodes]; omega⟩
    · rw [he]
      exact ⟨trivial, by rw [Lval.nodes]; omega⟩
  · exact herr _
  · exact herr _

/-- **A reduction** of cells that are values keeps values and never grows a tree. -/
theorem reduce_within (A : Arith N) {cell : List (Lval N)} (h : ∀ x ∈ cell, x.Normal) :
    (reduce A cell).Within (1 + nodesAll cell) := by
  unfold reduce
  split
  · rename_i e he
    have hmem : e ∈ cell := List.mem_of_find?_eq_some he
    have hle := nodes_le_nodesAll hmem
    exact within_plain (h e hmem) (by omega)
  · split
    · exact within_plain trivial (by simp [Lval.nodes])
    · rename_i x _
      exact within_plain (h x (List.mem_singleton_self x)) (by simp [nodesAll])
    · rename_i func args _ _
      have happly := apply_within A func args
      have hnodes : 1 + nodesAll (.sym func :: args) = 2 + nodesAll args := by
        rw [nodesAll, Lval.nodes]
        omega
      rw [hnodes]
      exact happly
    · exact within_lvalErr _ (by omega)

/-! ## Every tree has a meaning -/

/-- A meaning that is found within every depth from `depth` on, and is a value that is no larger than
the tree. -/
structure Settled (A : Arith N) (depth : ℕ) (v : Lval N) (r : Outcome N) : Prop where
  denote : ∀ d, depth ≤ d → denote A d v = some r
  normal : r.value.Normal
  nodes : r.value.nodes ≤ v.nodes

/-- The meanings of some trees that have one each. -/
theorem denoteAll_settled {A : Arith N} {depth : ℕ} {l : List (Lval N)}
    (h : ∀ x ∈ l, ∃ r, Settled A depth x r) :
    ∃ rs, (∀ d, depth ≤ d → denoteAll (denote A d) l = some rs) ∧ (∀ x ∈ rs.2, x.Normal) ∧
      nodesAll rs.2 ≤ nodesAll l := by
  induction l with
  | nil => exact ⟨([], []), fun _ _ => rfl, fun _ hx => absurd hx List.not_mem_nil, Nat.le_refl _⟩
  | cons x l ih =>
      obtain ⟨r, hr⟩ := h x List.mem_cons_self
      obtain ⟨rs, hrs, hnormal, hnodes⟩ := ih fun y hy => h y (List.mem_cons_of_mem x hy)
      refine ⟨(r.calcs ++ rs.1, r.value :: rs.2), fun d hd => ?_, fun y hy => ?_, ?_⟩
      · rw [denoteAll, hr.denote d hd, hrs d hd]
        rfl
      · rcases List.mem_cons.mp hy with rfl | hy
        · exact hr.normal
        · exact hnormal y hy
      · rw [nodesAll, nodesAll]
        exact Nat.add_le_add hr.nodes hnodes

/-- **Every tree has a meaning**, found within a depth of its size. -/
theorem denote_total (A : Arith N) (depth : ℕ) (v : Lval N) (h : v.nodes ≤ depth) :
    ∃ r, Settled A depth v r := by
  induction depth generalizing v with
  | zero =>
      have hpos := v.nodes_pos
      omega
  | succ depth ih =>
      -- a value is its own meaning
      have hvalue : ∀ v : Lval N, v.Normal → (∀ d, denote A (d + 1) v = some ⟨[], v⟩) →
          Settled A (depth + 1) v ⟨[], v⟩ := by
        intro v hnormal hdenote
        refine ⟨fun d hd => ?_, hnormal, Nat.le_refl _⟩
        obtain ⟨d, rfl⟩ := Nat.exists_eq_add_of_le' (show 1 ≤ d by omega)
        exact hdenote d
      cases v with
      | num n => exact ⟨_, hvalue _ trivial fun _ => rfl⟩
      | err e => exact ⟨_, hvalue _ trivial fun _ => rfl⟩
      | sym s => exact ⟨_, hvalue _ trivial fun _ => rfl⟩
      | qexpr cell => exact ⟨_, hvalue _ trivial fun _ => rfl⟩
      | sexpr cell =>
          rw [Lval.nodes] at h
          have hcell : ∀ x ∈ cell, ∃ r, Settled A depth x r := by
            intro x hx
            have hle := nodes_le_nodesAll hx
            exact ih x (by omega)
          obtain ⟨args, hargs, hnormal, hnodes⟩ := denoteAll_settled hcell
          have hwithin := reduce_within A hnormal
          have hdenote : ∀ d, depth ≤ d →
              denote A (d + 1) (.sexpr cell) = (reduce A args.2).outcome (denote A d) args.1 := by
            intro d hd
            rw [denote, hargs d hd]
            rfl
          have hsucc : ∀ d, depth + 1 ≤ d → ∃ d', depth ≤ d' ∧ d = d' + 1 :=
            fun d hd => ⟨d - 1, by omega, by omega⟩
          cases hreduce : reduce A args.2 with
          | done r =>
              rw [hreduce] at hwithin
              refine ⟨⟨args.1 ++ r.calcs, r.value⟩, fun d hd => ?_, hwithin.1, ?_⟩
              · obtain ⟨d, hle, rfl⟩ := hsucc d hd
                rw [hdenote d hle, hreduce, Reduct.outcome]
              · have hle : r.value.nodes ≤ 1 + nodesAll args.2 := hwithin.2
                rw [Lval.nodes]
                exact hle.trans (by omega)
          | again l =>
              rw [hreduce] at hwithin
              have hlt : (Lval.sexpr l).nodes < 1 + nodesAll args.2 := hwithin
              obtain ⟨r, hr⟩ := ih (.sexpr l) (by omega)
              refine ⟨⟨args.1 ++ r.calcs, r.value⟩, fun d hd => ?_, hr.normal, ?_⟩
              · obtain ⟨d, hle, rfl⟩ := hsucc d hd
                rw [hdenote d hle, hreduce, Reduct.outcome, hr.denote d hle]
                rfl
              · have hle : r.value.nodes ≤ (Lval.sexpr l).nodes := hr.nodes
                rw [Lval.nodes]
                exact hle.trans (by omega)

/-- The meaning of a tree is settled at its size. -/
theorem settled_meaning (A : Arith N) (v : Lval N) : Settled A v.nodes v (meaning A v) := by
  obtain ⟨r, hr⟩ := denote_total A v.nodes v (Nat.le_refl _)
  have hmeaning : meaning A v = r := by
    rw [meaning, hr.denote _ (Nat.le_refl _)]
    rfl
  rw [hmeaning]
  exact hr

end Asenal.Lisp
