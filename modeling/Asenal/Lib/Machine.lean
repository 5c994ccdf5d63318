import Mathlib.Data.List.Induction
import Mathlib.Tactic.SplitIfs
import Mathlib.Tactic.TypeStar

/-!
# Machines

A machine takes one action after the other, each where it can be taken. Its runs may be restricted to
those whose steps satisfy a condition, which looks at the state before the step and at the action.

* `Reached.invariant` — what holds at the beginning and is kept by a step holds in every run.
* `Reached.run` — a list of actions that is carried out is a run.
* `holds_along_iff` — when a property holds in all states of one run of a machine whose actions can always
  be taken.
-/

namespace Asenal.Lib.Machine

variable {S A : Type*}

/-- The states of the runs that begin in a state of `init` and whose steps satisfy `P`. -/
inductive Reached (init : S → Prop) (step : S → A → Option S) (P : S → A → Prop) : S → Prop
  | start (s : S) (hs : init s) : Reached init step P s
  | next (s s' : S) (act : A) (hs : Reached init step P s) (hact : P s act)
      (hstep : step s act = some s') : Reached init step P s'

variable {init : S → Prop} {step : S → A → Option S} {P : S → A → Prop} {s s' : S}

/-- **An invariant** of the beginning and of each step holds in every state that is reached. -/
theorem Reached.invariant {I : S → Prop} (hinit : ∀ s, init s → I s)
    (hnext : ∀ s act s', I s → P s act → step s act = some s' → I s')
    (h : Reached init step P s) : I s := by
  induction h with
  | start s hs => exact hinit s hs
  | next s s' act hs hact hstep ih => exact hnext s act s' ih hact hstep

/-- Actions that are carried out, each where the condition holds, are a run. -/
theorem Reached.run [∀ s act, Decidable (P s act)] (hs : Reached init step P s) (acts : List A)
    (h : acts.foldlM (fun s act => if P s act then step s act else none) s = some s') :
    Reached init step P s' := by
  induction acts generalizing s with
  | nil =>
      obtain rfl := Option.some.inj h
      exact hs
  | cons act acts ih =>
      rw [List.foldlM_cons, Option.bind_eq_bind, Option.bind_eq_some_iff] at h
      obtain ⟨t, hstep, hrest⟩ := h
      split_ifs at hstep with hact
      exact ih (Reached.next s t act hs hact hstep) hrest

/-! ## Actions that can always be taken -/

variable {next : S → A → S} {I J : S → Prop} {K : S → A → Prop}

/-- What each action keeps holds after all of them. -/
theorem foldl_invariant (hstep : ∀ s act, J s → J (next s act)) (acts : List A) (hs : J s) :
    J (acts.foldl next s) := by
  induction acts generalizing s with
  | nil => exact hs
  | cons act acts ih => exact ih (hstep s act hs)

/-- **All states of a run**: where an action keeps `I` exactly under the condition `K`, the states of a run
have `I` exactly when all its actions meet the condition. -/
theorem holds_along_iff (hstep : ∀ s act, J s → J (next s act))
    (hkeep : ∀ s act, J s → I s → (I (next s act) ↔ K s act)) (acts : List A) (hs : J s) (hI : I s) :
    (∀ pre, pre <+: acts → I (pre.foldl next s)) ↔
      ∀ pre act, pre ++ [act] <+: acts → K (pre.foldl next s) act := by
  constructor
  · intro h pre act hpre
    have hbefore := h pre ((List.prefix_append pre [act]).trans hpre)
    have hafter := h _ hpre
    rw [List.foldl_append] at hafter
    exact (hkeep _ act (foldl_invariant hstep pre hs) hbefore).mp hafter
  · intro h pre
    induction pre using List.reverseRecOn with
    | nil => exact fun _ => hI
    | append_singleton pre act ih =>
        intro hpre
        have hbefore := ih ((List.prefix_append pre [act]).trans hpre)
        rw [List.foldl_append]
        exact (hkeep _ act (foldl_invariant hstep pre hs) hbefore).mpr (h pre act hpre)

end Asenal.Lib.Machine
