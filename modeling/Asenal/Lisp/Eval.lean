import Mathlib.Data.Int.Basic
import Asenal.Lib.CString
import Asenal.Lib.Trace

/-!
# The evaluator of `ownlisp`

The functions of `m.c` that evaluate an expression tree, with a record of every access `v->cell[i]`,
of every access `->count` of a tree that came out of a cell, and of every calculation. Trees are
changed in place in the source, and never shared; so a function that changes one returns it here.

The file stands in the repository with the marks of a merge that was not resolved; what is modelled is
its second part, which holds the whole program.
-/

namespace Asenal.Lisp

open Asenal.Lib.Text Asenal.Lib.CString Asenal.Lib.Trace

/-! ## Trees -/

/-- The possible types of a tree. -/
inductive LvalType
  | err
  | num
  | sym
  | sexpr
  | qexpr
  deriving DecidableEq

/-- An expression tree over numbers of type `N`. Source: `m.c` `lval`. -/
inductive Lval (N : Type)
  | num (num : N)
  | err (err : Bytes)
  | sym (sym : Bytes)
  | sexpr (cell : List (Lval N))
  | qexpr (cell : List (Lval N))

variable {N M : Type}

/-- `v->type`. -/
def Lval.type : Lval N → LvalType
  | .num _ => .num
  | .err _ => .err
  | .sym _ => .sym
  | .sexpr _ => .sexpr
  | .qexpr _ => .qexpr

/-- Source: `m.c` `lval_err`. -/
def lvalErr (m : String) : Lval N := .err (ascii m)

/-! ## Numbers -/

/-- A calculation, with its operands. -/
inductive Calc
  | neg (x : ℤ)
  | add (x y : ℤ)
  | sub (x y : ℤ)
  | mul (x y : ℤ)
  | div (x y : ℤ)
  deriving DecidableEq

/-- The exact result; a quotient is truncated. -/
def Calc.exact : Calc → ℤ
  | .neg x => -x
  | .add x y => x + y
  | .sub x y => x - y
  | .mul x y => x * y
  | .div x y => x.tdiv y

/-- A type of numbers: the integer that a number stands for, and the number that is stored for the
result of a calculation. -/
structure Arith (N : Type) where
  toInt : N → ℤ
  ofInt : ℤ → N

/-- The numbers of the source. A result that does not fit is undefined there; here it wraps around. -/
def long : Arith Int64 where
  toInt := Int64.toInt
  ofInt := Int64.ofInt

/-- The integers, as numbers that hold every result. -/
def unbounded : Arith ℤ where
  toInt := id
  ofInt := id

/-! ## The record -/

/-- What is recorded: an access to cell `i` of a tree with `count` cells, an access to the count of a
tree of a type, a calculation. -/
inductive Event
  | cell (i count : ℕ)
  | count (type : LvalType)
  | calculate (c : Calc)
  deriving DecidableEq

/-- Why there is no result: the depth of the recursion is used up, or a tree does not have what is
accessed. -/
inductive Stop
  | depth
  | fault
  deriving DecidableEq

/-- A run of a function of the evaluator. -/
abbrev Run := Traced Event Stop

/-- `v->cell[i]`, of a tree with the cells `v`. -/
def cellAt (v : List (Lval N)) (i : ℕ) : Run (Lval N) := do
  emit (.cell i v.length)
  match v[i]? with
  | some x => pure x
  | none => stop .fault

/-- `v->cell[i] = x`. -/
def setCell (v : List (Lval N)) (i : ℕ) (x : Lval N) : Run (List (Lval N)) := do
  emit (.cell i v.length)
  pure (v.set i x)

/-- `x->count` of a tree that must be a Q-expression, and with it the cells that are counted. -/
def cells (x : Lval N) : Run (List (Lval N)) := do
  emit (.count x.type)
  match x with
  | .qexpr cell => pure cell
  | _ => stop .fault

/-- `x->num`. -/
def numAt : Lval N → Run N
  | .num n => pure n
  | _ => stop .fault

/-- `x->type = LVAL_SEXPR`, of a tree that is evaluated then. -/
def toSexpr : Lval N → Run (Lval N)
  | .qexpr cell => pure (.sexpr cell)
  | .sexpr cell => pure (.sexpr cell)
  | _ => stop .fault

/-- A calculation. -/
def Arith.perform (A : Arith N) (c : Calc) : Run N := do
  emit (.calculate c)
  pure (A.ofInt c.exact)

/-- `if (cond) { x->num = …; }`. -/
def Arith.performIf (A : Arith N) (cond : Prop) [Decidable cond] (c : Calc) (x : N) : Run N :=
  if cond then A.perform c else pure x

/-! ## Cells -/

mutual

/-- Source: `m.c` `lval_del`. -/
def lvalDel : Lval N → Run Unit
  | .num _ => pure ()
  | .err _ => pure ()
  | .sym _ => pure ()
  | .qexpr cell => lvalDelCells cell.length 0 cell
  | .sexpr cell => lvalDelCells cell.length 0 cell

/-- The loop of `lval_del`, from cell `i` of `count` on. -/
def lvalDelCells (count i : ℕ) : List (Lval N) → Run Unit
  | [] => pure ()
  | x :: rest => do
      emit (.cell i count)
      lvalDel x
      lvalDelCells count (i + 1) rest

end

/-- Source: `m.c` `lval_add`. -/
def lvalAdd (v : List (Lval N)) (x : Lval N) : Run (List (Lval N)) := do
  emit (.cell v.length (v.length + 1))
  pure (v ++ [x])

/-- Source: `m.c` `lval_pop`. -/
def lvalPop (v : List (Lval N)) (i : ℕ) : Run (Lval N × List (Lval N)) := do
  let x ← cellAt v i
  pure (x, v.eraseIdx i)

/-- The loop of `lval_join`, while `y` has `k` cells. -/
def joinCells : ℕ → List (Lval N) → List (Lval N) → Run (List (Lval N) × List (Lval N))
  | 0, x, y => pure (x, y)
  | k + 1, x, y => do
      let (c, y) ← lvalPop y 0
      let x ← lvalAdd x c
      joinCells k x y

/-- Source: `m.c` `lval_join`. -/
def lvalJoin (x y : List (Lval N)) : Run (List (Lval N)) := do
  let (x, y) ← joinCells y.length x y
  lvalDel (.qexpr y)
  pure x

/-- Source: `m.c` `lval_take`. -/
def lvalTake (v : List (Lval N)) (i : ℕ) : Run (Lval N) := do
  let (x, v) ← lvalPop v i
  lvalDel (.sexpr v)
  pure x

/-- Source: `m.c` `LASSERT`. -/
def lassert (args : List (Lval N)) (cond : Prop) [Decidable cond] (err : String)
    (rest : Run (Lval N)) : Run (Lval N) :=
  if cond then rest
  else do
    lvalDel (.sexpr args)
    pure (lvalErr err)

/-- The loops that test the types of `k` cells from cell `i` on. -/
def haveType (t : LvalType) (a : List (Lval N)) (i : ℕ) : ℕ → Run Bool
  | 0 => pure true
  | k + 1 => do
      let x ← cellAt a i
      if x.type = t then haveType t a (i + 1) k else pure false

/-! ## The functions of the language

The arguments `a` are an S-expression, given by its cells. -/

/-- Source: `m.c` `builtin_list`. -/
def builtinList (a : List (Lval N)) : Run (Lval N) := pure (.qexpr a)

/-- The loop of `builtin_head`, while there are `k` cells. -/
def dropCells : ℕ → List (Lval N) → Run (List (Lval N))
  | 0, v => pure v
  | 1, v => pure v
  | k + 2, v => do
      let (x, v) ← lvalPop v 1
      lvalDel x
      dropCells (k + 1) v

/-- Source: `m.c` `builtin_head`. -/
def builtinHead (a : List (Lval N)) : Run (Lval N) :=
  lassert a (a.length = 1) "Function 'head' passed too many arguments." do
  let x ← cellAt a 0
  lassert a (x.type = .qexpr) "Function 'head' passed incorrect type." do
  let x ← cellAt a 0
  let cell ← cells x
  lassert a (cell.length ≠ 0) "Function 'head' passed \x7b\x7d." do
  let v ← lvalTake a 0
  let v ← cells v
  let v ← dropCells v.length v
  pure (.qexpr v)

/-- Source: `m.c` `builtin_tail`. -/
def builtinTail (a : List (Lval N)) : Run (Lval N) :=
  lassert a (a.length = 1) "Function 'tail' passed too many arguments." do
  let x ← cellAt a 0
  lassert a (x.type = .qexpr) "Function 'tail' passed incorrect type." do
  let x ← cellAt a 0
  let cell ← cells x
  lassert a (cell.length ≠ 0) "Function 'tail' passed \x7b\x7d." do
  let v ← lvalTake a 0
  let v ← cells v
  let (x, v) ← lvalPop v 0
  lvalDel x
  pure (.qexpr v)

/-- Source: `m.c` `builtin_eval`, with the evaluator that it calls. -/
def builtinEval (lvalEval : Lval N → Run (Lval N)) (a : List (Lval N)) : Run (Lval N) :=
  lassert a (a.length = 1) "Function 'eval' passed too many arguments." do
  let x ← cellAt a 0
  lassert a (x.type = .qexpr) "Function 'eval' passed incorrect type." do
  let x ← lvalTake a 0
  let x ← toSexpr x
  lvalEval x

/-- The second loop of `builtin_join`, while `a` has `k` cells. -/
def joinAll : ℕ → List (Lval N) → List (Lval N) → Run (List (Lval N) × List (Lval N))
  | 0, x, a => pure (x, a)
  | k + 1, x, a => do
      let (y, a) ← lvalPop a 0
      let y ← cells y
      let x ← lvalJoin x y
      joinAll k x a

/-- Source: `m.c` `builtin_join`. -/
def builtinJoin (a : List (Lval N)) : Run (Lval N) := do
  let typed ← haveType .qexpr a 0 a.length
  lassert a typed "Function 'join' passed incorrect type." do
  let (x, a) ← lvalPop a 0
  let x ← cells x
  let (x, a) ← joinAll a.length x a
  lvalDel (.sexpr a)
  pure (.qexpr x)

/-- One operand of `builtin_op`; no number if it divides by zero. -/
def applyOp (A : Arith N) (op : Bytes) (x y : N) : Run (Option N) := do
  let x ← A.performIf (op = ascii "+") (.add (A.toInt x) (A.toInt y)) x
  let x ← A.performIf (op = ascii "-") (.sub (A.toInt x) (A.toInt y)) x
  let x ← A.performIf (op = ascii "*") (.mul (A.toInt x) (A.toInt y)) x
  if op = ascii "/" then
    if A.toInt y = 0 then pure none
    else do
      let x ← A.perform (.div (A.toInt x) (A.toInt y))
      pure (some x)
  else pure (some x)

/-- The loop of `builtin_op`, while `a` has `k` cells. -/
def foldOp (A : Arith N) (op : Bytes) :
    ℕ → N → List (Lval N) → Run (Lval N × List (Lval N))
  | 0, x, a => pure (.num x, a)
  | k + 1, x, a => do
      let (y, a) ← lvalPop a 0
      let yNum ← numAt y
      match ← applyOp A op x yNum with
      | none => do
          lvalDel (.num x)
          lvalDel y
          pure (lvalErr "Division By Zero.", a)
      | some x => do
          lvalDel y
          foldOp A op k x a

/-- Source: `m.c` `builtin_op`. -/
def builtinOp (A : Arith N) (a : List (Lval N)) (op : Bytes) : Run (Lval N) := do
  let typed ← haveType .num a 0 a.length
  lassert a typed "Cannot operate on non-number!" do
  let (x, a) ← lvalPop a 0
  let x ← numAt x
  let x ← A.performIf (op = ascii "-" ∧ a.length = 0) (.neg (A.toInt x)) x
  let (x, a) ← foldOp A op a.length x a
  lvalDel (.sexpr a)
  pure x

/-- Source: `m.c` `builtin`. -/
def builtin (A : Arith N) (lvalEval : Lval N → Run (Lval N)) (a : List (Lval N)) (func : Bytes) :
    Run (Lval N) :=
  if ascii "list" = func then builtinList a
  else if ascii "head" = func then builtinHead a
  else if ascii "tail" = func then builtinTail a
  else if ascii "join" = func then builtinJoin a
  else if ascii "eval" = func then builtinEval lvalEval a
  else if (strstr func (ascii "+-/*")).isSome then builtinOp A a func
  else do
    lvalDel (.sexpr a)
    pure (lvalErr "Unknown Function!")

/-! ## Evaluation -/

/-- The loop that evaluates `k` cells from cell `i` on. -/
def evalCells (lvalEval : Lval N → Run (Lval N)) (v : List (Lval N)) (i : ℕ) :
    ℕ → Run (List (Lval N))
  | 0 => pure v
  | k + 1 => do
      let x ← cellAt v i
      let x ← lvalEval x
      let v ← setCell v i x
      evalCells lvalEval v (i + 1) k

/-- The loop that looks for an error in `k` cells from cell `i` on. -/
def firstErr (v : List (Lval N)) (i : ℕ) : ℕ → Run (Option ℕ)
  | 0 => pure none
  | k + 1 => do
      let x ← cellAt v i
      if x.type = .err then pure (some i) else firstErr v (i + 1) k

/-- Source: `m.c` `lval_eval_sexpr`. -/
def lvalEvalSexpr (A : Arith N) (lvalEval : Lval N → Run (Lval N)) (v : List (Lval N)) :
    Run (Lval N) := do
  let v ← evalCells lvalEval v 0 v.length
  match ← firstErr v 0 v.length with
  | some i => lvalTake v i
  | none =>
    if v.length = 0 then pure (.sexpr v)
    else if v.length = 1 then lvalTake v 0
    else do
      let (f, v) ← lvalPop v 0
      match f with
      | .sym sym => do
          let result ← builtin A lvalEval v sym
          lvalDel f
          pure result
      | _ => do
          lvalDel f
          lvalDel (.sexpr v)
          pure (lvalErr "S-expression Does not start with symbol.")

/-- Evaluate a tree, to a given depth of calls. Source: `m.c` `lval_eval`. -/
def lvalEval (A : Arith N) : ℕ → Lval N → Run (Lval N)
  | 0, _ => stop .depth
  | depth + 1, .sexpr cell => lvalEvalSexpr A (lvalEval A depth) cell
  | _ + 1, v => pure v

/-- `(+ 1 2)` is `3`. -/
example : (lvalEval long 4 (.sexpr [.sym (ascii "+"), .num 1, .num 2])).result = .ok (.num 3) := by
  rfl

end Asenal.Lisp
