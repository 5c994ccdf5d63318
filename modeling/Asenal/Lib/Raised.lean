import Mathlib.Data.Nat.Notation
import Mathlib.Tactic.SplitIfs
import Mathlib.Tactic.TypeStar

/-!
# Computations that may raise

A computation returns or raises; what stands behind it is done where it returns.

* `bind_eq_ok` — a computation of two parts returns if both do.
* `foldlM_append_eq_ok` — a sequence of steps, in two parts.
* `Outcome.bind` — what is known of the result and of the exceptions.
* `loop_next`, `loop_done` — what a loop does.
-/

namespace Asenal.Lib.Raised

variable {ε α β σ : Type} {x : Except ε α} {f : α → Except ε β} {a : α} {b : β} {e : ε}

/-- `pure` returns. -/
@[simp] theorem pure_eq (a : α) : (pure a : Except ε α) = .ok a := rfl

/-- What is returned is handed on. -/
@[simp] theorem ok_bind (a : α) (f : α → Except ε β) : (Except.ok a >>= f) = f a := rfl

/-- What is raised ends a call. -/
@[simp] theorem error_bind (e : ε) (f : α → Except ε β) : (Except.error e >>= f) = .error e := rfl

/-- Two calls return if the first one does, and the second one with its result. -/
theorem bind_eq_ok : (x >>= f) = .ok b ↔ ∃ a, x = .ok a ∧ f a = .ok b := by
  cases x with
  | error e => simp
  | ok a => simp

/-- Two calls raise what one of them raises. -/
theorem bind_eq_error : (x >>= f) = .error e ↔ x = .error e ∨ ∃ a, x = .ok a ∧ f a = .error e := by
  cases x with
  | error e => simp
  | ok a => simp

/-- Steps one after the other. -/
theorem foldlM_cons_eq_ok {step : σ → α → Except ε σ} {s t : σ} {l : List α} :
    (a :: l).foldlM step s = .ok t ↔ ∃ r, step s a = .ok r ∧ l.foldlM step r = .ok t := by
  rw [List.foldlM_cons, bind_eq_ok]

/-- Calls one after the other, in two parts. -/
theorem foldlM_append_eq_ok {step : σ → α → Except ε σ} {s t : σ} {l m : List α} :
    (l ++ m).foldlM step s = .ok t ↔ ∃ r, l.foldlM step s = .ok r ∧ m.foldlM step r = .ok t := by
  rw [List.foldlM_append, bind_eq_ok]

/-- A computation returns something with the property `P`, or raises an exception with the property `Q`. -/
def Outcome (P : α → Prop) (Q : ε → Prop) : Except ε α → Prop
  | .ok a => P a
  | .error e => Q e

variable {P : α → Prop} {R : β → Prop} {Q : ε → Prop}

/-- The rule of a call behind another one. -/
theorem Outcome.bind (hx : Outcome P Q x) (hf : ∀ a, P a → Outcome R Q (f a)) : Outcome R Q (x >>= f) := by
  cases x with
  | error e => exact hx
  | ok a => exact hf a hx

/-- More may be said of what is returned. -/
theorem Outcome.imp {P' : α → Prop} (hx : Outcome P Q x) (h : ∀ a, P a → P' a) : Outcome P' Q x := by
  cases x with
  | error e => exact hx
  | ok a => exact h a hx

/-- More may be said of what is returned and of what is raised. -/
theorem Outcome.mono {P' : α → Prop} {Q' : ε → Prop} (hx : Outcome P Q x) (h : ∀ a, P a → P' a)
    (hq : ∀ e, Q e → Q' e) : Outcome P' Q' x := by
  cases x with
  | error e => exact hq e hx
  | ok a => exact h a hx

/-- What is returned is changed. -/
theorem Outcome.map {g : α → β} (hx : Outcome P Q x) (h : ∀ a, P a → R (g a)) : Outcome R Q (x.map g) := by
  cases x with
  | error e => exact hx
  | ok a => exact h a hx

/-- The rule of a case distinction. -/
theorem Outcome.ite {p : Prop} [Decidable p] {y : Except ε α} (hx : p → Outcome P Q x) (hy : ¬p → Outcome P Q y) :
    Outcome P Q (if p then x else y) := by
  split_ifs with hp
  · exact hx hp
  · exact hy hp

/-! ## Loops -/

/-- A loop whose body goes on with a state or ends with a result; `late` is raised where the fuel is not enough. -/
def loop (late : ε) (body : σ → Except ε (σ ⊕ β)) : ℕ → σ → Except ε β
  | 0, _ => .error late
  | n + 1, s => body s >>= Sum.elim (loop late body n) .ok

variable {late : ε} {body : σ → Except ε (σ ⊕ β)} {s s' : σ} {n : ℕ}

/-- Another round. -/
theorem loop_next (h : body s = .ok (.inl s')) : loop late body (n + 1) s = loop late body n s' := by
  rw [loop, h]
  rfl

/-- The last round. -/
theorem loop_done (h : body s = .ok (.inr b)) : loop late body (n + 1) s = .ok b := by
  rw [loop, h]
  rfl

end Asenal.Lib.Raised
