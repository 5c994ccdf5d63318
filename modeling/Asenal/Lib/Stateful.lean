import Asenal.Lib.Raised

/-!
# Computations that raise and leave a state

A computation with a state returns or raises, and leaves a state in both cases.

* `on_bind`, `forget_bind` — two computations one after the other, with what is left, and without it where they raise.
* `Keeps.bind` — an invariant of the states that are left, and what is raised.
-/

namespace Asenal.Lib.Stateful

open Asenal.Lib.Raised

variable {ε σ α β : Type}

/-- A computation on a state. -/
abbrev Kept (ε σ α : Type) := ExceptT ε (StateM σ) α

/-- What comes of a computation, and the state that it leaves. -/
def Kept.on (m : Kept ε σ α) (s : σ) : Except ε α × σ := m.run.run s

/-- A computation that leaves its state as it is where it raises. -/
def atomic (f : σ → Except ε (α × σ)) : Kept ε σ α :=
  ExceptT.mk fun s =>
    match f s with
    | .ok (a, s') => (.ok a, s')
    | .error e => (.error e, s)

/-- What does not look at the state. -/
def pureOf (x : Except ε α) : Kept ε σ α := atomic fun s => x.map fun a => (a, s)

/-- What is left of a result where no state is left behind an exception. -/
def forget : Except ε α × σ → Except ε (α × σ)
  | (.ok a, s) => .ok (a, s)
  | (.error e, _) => .error e

variable {m : Kept ε σ α} {f : α → Kept ε σ β} {s s' : σ} {a : α} {e : ε}

/-- A computation that returns, and one behind it. -/
theorem on_bind_ok (h : m.on s = (.ok a, s')) : (m >>= f).on s = (f a).on s' := by
  simp only [Kept.on] at h ⊢
  rw [ExceptT.run_bind, StateT.run_bind, h]
  rfl

/-- A computation that raises ends what stands behind it. -/
theorem on_bind_error (h : m.on s = (.error e, s')) : (m >>= f).on s = (.error e, s') := by
  simp only [Kept.on] at h ⊢
  rw [ExceptT.run_bind, StateT.run_bind, h]
  rfl

/-- What is done in one piece leaves the state as it was where it raises. -/
theorem on_atomic (g : σ → Except ε (α × σ)) (s : σ) :
    (atomic g).on s = match g s with
      | .ok (a, s') => (.ok a, s')
      | .error e => (.error e, s) := rfl

/-- Without the state behind an exception this is the function that it is made of. -/
theorem forget_atomic (g : σ → Except ε (α × σ)) (s : σ) : forget ((atomic g).on s) = g s := by
  rw [on_atomic]
  cases g s <;> rfl

/-- Two computations, as far as they return. -/
theorem forget_bind (m : Kept ε σ α) (f : α → Kept ε σ β) (s : σ) :
    forget ((m >>= f).on s) = forget (m.on s) >>= fun r => forget ((f r.1).on r.2) := by
  rcases h : m.on s with ⟨_ | a, s'⟩
  · rw [on_bind_error h]
    rfl
  · rw [on_bind_ok h]
    rfl

/-- `get` without the state behind an exception. -/
theorem forget_get (s : σ) : forget ((get : Kept ε σ σ).on s) = .ok (s, s) := rfl

/-- A result that is looked at without the state. -/
theorem forget_pureOf (x : Except ε α) (g : α → β) (s : σ) :
    forget ((pureOf x >>= fun a => pure (g a) : Kept ε σ β).on s) = x >>= fun a => pure (g a, s) := by
  cases x <;> rfl

/-- Computations whose parts are the same, as far as they return. -/
theorem forget_next {x : Except ε (α × σ)} {g : α × σ → Except ε (β × σ)} (hm : forget (m.on s) = x)
    (hf : ∀ a s', forget ((f a).on s') = g (a, s')) : forget ((m >>= f).on s) = x >>= g := by
  rw [forget_bind, hm]
  exact bind_congr fun r => hf r.1 r.2

/-! ## Invariants -/

/-- Where the state has the property `P`, so has the state that is left, and what is raised has the property `Q`. -/
def Keeps (P : σ → Prop) (Q : ε → Prop) (m : Kept ε σ α) : Prop :=
  ∀ s, P s → P (m.on s).2 ∧ Outcome (fun _ => True) Q (m.on s).1

variable {P : σ → Prop} {Q : ε → Prop}

/-- The rule of a computation behind another one. -/
theorem Keeps.bind (hm : Keeps P Q m) (hf : ∀ a, Keeps P Q (f a)) : Keeps P Q (m >>= f) := by
  intro s hs
  obtain ⟨hleft, hout⟩ := hm s hs
  rcases h : m.on s with ⟨e | a, s'⟩
  · rw [h] at hleft hout
    rw [on_bind_error h]
    exact ⟨hleft, hout⟩
  · rw [h] at hleft
    rw [on_bind_ok h]
    exact hf a s' hleft

/-- The rule of `pure`. -/
theorem keeps_pure (a : α) : Keeps P Q (pure a : Kept ε σ α) := fun _ hs => ⟨hs, trivial⟩

/-- The rule of `throw`. -/
theorem keeps_throw (h : Q e) : Keeps P Q (throw e : Kept ε σ α) := fun _ hs => ⟨hs, h⟩

/-- The rule of `get`. -/
theorem keeps_get : Keeps P Q (get : Kept ε σ σ) := fun _ hs => ⟨hs, trivial⟩

/-- The rule of `modify`. -/
theorem keeps_modify {g : σ → σ} (h : ∀ s, P s → P (g s)) : Keeps P Q (modify g : Kept ε σ PUnit) :=
  fun s hs => ⟨h s hs, trivial⟩

/-- The rule of a case distinction. -/
theorem keeps_ite {p : Prop} [Decidable p] {m' : Kept ε σ α} (h : p → Keeps P Q m) (h' : ¬p → Keeps P Q m') :
    Keeps P Q (if p then m else m') := by
  split_ifs with hp
  · exact h hp
  · exact h' hp

/-- The rule of what is done in one piece. -/
theorem keeps_atomic {g : σ → Except ε (α × σ)} (h : ∀ s, P s → Outcome (fun r => P r.2) Q (g s)) :
    Keeps P Q (atomic g) := by
  intro s hs
  have hout := h s hs
  rw [on_atomic]
  cases hg : g s with
  | error e =>
      rw [hg] at hout
      exact ⟨hs, hout⟩
  | ok r =>
      rw [hg] at hout
      exact ⟨hout, trivial⟩

/-- The rule of what has no state. -/
theorem keeps_pureOf {x : Except ε α} (h : Outcome (fun _ => True) Q x) : Keeps P Q (pureOf x : Kept ε σ α) :=
  keeps_atomic fun _ hs => h.map fun _ _ => hs

end Asenal.Lib.Stateful
