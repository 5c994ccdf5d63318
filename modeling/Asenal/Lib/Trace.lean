import Mathlib.Data.List.Basic

/-!
# Computations with a record of what they do

A computation that records events on its way and either returns or stops. What is proved about one
has three parts, which are carried through it together: all its events are as they must be, the part
of them that is observed is a given list, and it returns a given value.

* `Yields.bind` — the three parts of a computation and of the one behind it.
* `all_bind` — what all events of a computation satisfy, and those of the one behind it.
-/

namespace Asenal.Lib.Trace

/-- What a computation recorded, and how it ended. -/
structure Traced (ε σ α : Type) where
  log : List ε
  result : Except σ α

variable {ε σ α β ω : Type}

instance : Monad (Traced ε σ) where
  pure a := ⟨[], .ok a⟩
  bind x f := match x.result with
    | .ok a => ⟨x.log ++ (f a).log, (f a).result⟩
    | .error s => ⟨x.log, .error s⟩

/-- Record an event. -/
def emit (e : ε) : Traced ε σ Unit := ⟨[e], .ok ()⟩

/-- Stop here. -/
def stop (s : σ) : Traced ε σ α := ⟨[], .error s⟩

/-- All events satisfy `P`, what `obs` shows of them is `l`, and `a` is returned. -/
structure Yields (P : ε → Prop) (obs : ε → Option ω) (x : Traced ε σ α) (l : List ω) (a : α) :
    Prop where
  log : ∀ e ∈ x.log, P e
  observed : x.log.filterMap obs = l
  result : x.result = .ok a

variable {P : ε → Prop} {obs : ε → Option ω}

/-- A result without an event. -/
theorem yields_pure (a : α) : Yields P obs (pure a : Traced ε σ α) [] a :=
  ⟨fun _ h => absurd h List.not_mem_nil, rfl, rfl⟩

/-- One event that is allowed. -/
theorem yields_emit (obs : ε → Option ω) {e : ε} (h : P e) :
    Yields P obs (emit e : Traced ε σ Unit) (obs e).toList () := by
  refine ⟨fun d hd => ?_, ?_, rfl⟩
  · rw [List.mem_singleton.mp hd]
    exact h
  · show [e].filterMap obs = _
    rw [List.filterMap_cons]
    cases obs e <;> rfl

/-- An event that is not observed. -/
theorem yields_emit_hidden {e : ε} (h : P e) (hobs : obs e = none) :
    Yields P obs (emit e : Traced ε σ Unit) [] () := by
  have hyields : Yields P obs (emit e : Traced ε σ Unit) (obs e).toList () := yields_emit obs h
  rw [hobs] at hyields
  exact hyields

/-- **A computation and the one behind it**. -/
theorem Yields.bind {x : Traced ε σ α} {f : α → Traced ε σ β} {l m : List ω} {a : α} {b : β}
    (hx : Yields P obs x l a) (hf : Yields P obs (f a) m b) :
    Yields P obs (x >>= f) (l ++ m) b := by
  have heq : x >>= f = ⟨x.log ++ (f a).log, (f a).result⟩ := by
    show (match x.result with
      | .ok a => (⟨x.log ++ (f a).log, (f a).result⟩ : Traced ε σ β)
      | .error s => ⟨x.log, .error s⟩) = _
    rw [hx.result]
  rw [heq]
  refine ⟨fun e he => ?_, ?_, hf.result⟩
  · rcases List.mem_append.mp he with h | h
    · exact hx.log e h
    · exact hf.log e h
  · show (x.log ++ (f a).log).filterMap obs = _
    rw [List.filterMap_append, hx.observed, hf.observed]

/-- A computation of which nothing is observed, and the one behind it. -/
theorem Yields.then {x : Traced ε σ α} {f : α → Traced ε σ β} {m : List ω} {a : α} {b : β}
    (hx : Yields P obs x [] a) (hf : Yields P obs (f a) m b) : Yields P obs (x >>= f) m b :=
  hx.bind hf

/-- A computation, and one behind it of which nothing is observed. -/
theorem Yields.silent {x : Traced ε σ α} {f : α → Traced ε σ β} {l : List ω} {a : α} {b : β}
    (hx : Yields P obs x l a) (hf : Yields P obs (f a) [] b) : Yields P obs (x >>= f) l b := by
  have hboth := hx.bind hf
  rw [List.append_nil] at hboth
  exact hboth

/-! ## What all events satisfy -/

/-- Record some events, one after the other. -/
def emits (l : List ε) : Traced ε σ Unit := ⟨l, .ok ()⟩

/-- All events satisfy `P`. -/
def All (P : ε → Prop) (x : Traced ε σ α) : Prop := ∀ e ∈ x.log, P e

/-- A result has no event. -/
@[simp] theorem all_pure (P : ε → Prop) (a : α) : All P (pure a : Traced ε σ α) :=
  fun _ h => absurd h List.not_mem_nil

/-- A stop has no event. -/
@[simp] theorem all_stop (P : ε → Prop) (s : σ) : All P (stop s : Traced ε σ α) :=
  fun _ h => absurd h List.not_mem_nil

/-- One event. -/
@[simp] theorem all_emit {e : ε} : All P (emit e : Traced ε σ Unit) ↔ P e := List.forall_mem_singleton

/-- Some events. -/
@[simp] theorem all_emits {l : List ε} : All P (emits l : Traced ε σ Unit) ↔ ∀ e ∈ l, P e := Iff.rfl

/-- **All events of a computation and of the one behind it.** -/
theorem all_bind {x : Traced ε σ α} {f : α → Traced ε σ β} :
    All P (x >>= f) ↔ All P x ∧ ∀ a, x.result = .ok a → All P (f a) := by
  obtain ⟨log, result⟩ := x
  cases result with
  | error s => exact ⟨fun h => ⟨h, fun a ha => by cases ha⟩, fun h => h.1⟩
  | ok a =>
      constructor
      · intro h
        refine ⟨fun e he => h e (List.mem_append_left _ he), ?_⟩
        intro b hb e he
        obtain rfl := Except.ok.inj hb
        exact h e (List.mem_append_right _ he)
      · rintro ⟨h, hf⟩ e he
        exact (List.mem_append.mp he).elim (h e) (hf a rfl e)

/-- One event in front of others. -/
theorem all_emit_bind {e : ε} {f : Unit → Traced ε σ β} :
    All P (emit e >>= f) ↔ P e ∧ All P (f ()) := by
  rw [all_bind, all_emit]
  exact and_congr_right fun _ => ⟨fun h => h () rfl, fun h _ _ => h⟩

/-- Some events in front of others. -/
theorem all_emits_bind {l : List ε} {f : Unit → Traced ε σ β} :
    All P (emits l >>= f) ↔ (∀ e ∈ l, P e) ∧ All P (f ()) := by
  rw [all_bind, all_emits]
  exact and_congr_right fun _ => ⟨fun h => h () rfl, fun h _ _ => h⟩

/-- An event does not change the result. -/
@[simp] theorem result_emit_bind (e : ε) (f : Unit → Traced ε σ β) :
    (emit e >>= f).result = (f ()).result := rfl

/-- Events do not change the result. -/
@[simp] theorem result_emits_bind (l : List ε) (f : Unit → Traced ε σ β) :
    (emits l >>= f).result = (f ()).result := rfl

end Asenal.Lib.Trace
