import Asenal.Lib.Raised
import Mathlib.Tactic.SplitIfs
import Mathlib.Data.Nat.Notation

/-!
# Parsing by tables

A parser that keeps a stack of states with values, looks at the next token, and shifts it, reduces what is on top
of the stack, accepts, or raises, as its tables say.

* `step_shift`, `step_reduce`, `step_cases` — what a step is.
* `Steps`, `run_of_steps` — steps one after the other, and runs with enough fuel.
* `run_isSome` — where a measure sinks with each step, it is fuel enough.
* `run_invariant` — what holds where a run ends.
* `Engine`, `Engine.parse_eq` — whatever runs the tables, and what it returns.
-/

namespace Asenal.Lib.ShiftReduce

open Asenal.Lib.Raised

variable {T V E : Type}

/-- An entry of the table of actions. -/
inductive Act
  | shift (state : ℕ)
  | reduce (prod : ℕ)
  | accept
deriving DecidableEq

/-- The tables of a parser, and what values its tokens and its productions have. -/
structure Parser (T V E : Type) where
  /-- By the state and the next token; `none` is the end. -/
  action : ℕ → Option T → Option Act
  /-- By the state below what is reduced, and the production. -/
  goto : ℕ → ℕ → Option ℕ
  length : ℕ → ℕ
  shift : T → V
  reduce : ℕ → List V → V
  syntaxError : E
  /-- The stack is not as the tables suppose. -/
  stuck : E

/-- Where a parser is: its stack, the topmost entry first, the tokens that are left, and what is raised behind
them, if anything is. -/
structure Config (T V E : Type) where
  stack : List (ℕ × V)
  input : List T
  ending : Option E

/-- The state on top of a stack. -/
def stateOf : List (ℕ × V) → ℕ
  | [] => 0
  | (s, _) :: _ => s

/-- The next token. -/
def lookahead (c : Config T V E) : Except E (Option T) :=
  match c.input, c.ending with
  | t :: _, _ => .ok (some t)
  | [], none => .ok none
  | [], some e => .error e

variable (P : Parser T V E)

/-- One step: to another place, or to a result. -/
def step (c : Config T V E) : Except E (Config T V E ⊕ V) := do
  let look ← lookahead c
  match P.action (stateOf c.stack) look, c.input, c.stack with
  | none, _, _ => .error P.syntaxError
  | some .accept, _, (_, v) :: _ => .ok (.inr v)
  | some (.shift s), t :: rest, stack => .ok (.inl { c with stack := (s, P.shift t) :: stack, input := rest })
  | some (.reduce p), _, stack =>
      let popped := stack.take (P.length p)
      let below := stack.drop (P.length p)
      if popped.length = P.length p then
        match P.goto (stateOf below) p with
        | some s => .ok (.inl { c with stack := (s, P.reduce p (popped.reverse.map Prod.snd)) :: below })
        | none => .error P.stuck
      else .error P.stuck
  | _, _, _ => .error P.stuck

/-- A parser is stuck where its tables have an entry with which it cannot go on. -/
def Stuck (c : Config T V E) : Prop :=
  ∃ look, lookahead c = .ok look ∧
    (P.action (stateOf c.stack) look = some .accept ∧ c.stack = [] ∨
    (∃ s, P.action (stateOf c.stack) look = some (.shift s) ∧ c.input = []) ∨
    ∃ p, P.action (stateOf c.stack) look = some (.reduce p) ∧
      ∀ popped below s, c.stack = popped ++ below → popped.length = P.length p → P.goto (stateOf below) p ≠ some s)

/-- Step after step; `none` if the fuel does not suffice. -/
def run : ℕ → Config T V E → Option (Except E V)
  | 0, _ => none
  | fuel + 1, c =>
      match step P c with
      | .error e => some (.error e)
      | .ok (.inr v) => some (.ok v)
      | .ok (.inl c') => run fuel c'

/-! ## Steps -/

section

variable {P} {c : Config T V E} {r : Config T V E ⊕ V}

/-- A shift. -/
theorem step_shift {t : T} {rest : List T} {s : ℕ} (hinput : c.input = t :: rest)
    (hact : P.action (stateOf c.stack) (some t) = some (.shift s)) :
    step P c = .ok (.inl { c with stack := (s, P.shift t) :: c.stack, input := rest }) := by
  obtain ⟨stack, input, ending⟩ := c
  obtain rfl : input = t :: rest := hinput
  simp only [step, lookahead, ok_bind]
  rw [hact]

/-- A reduction. -/
theorem step_reduce {look : Option T} {p s : ℕ} {popped below : List (ℕ × V)} (hlook : lookahead c = .ok look)
    (hact : P.action (stateOf c.stack) look = some (.reduce p)) (hstack : c.stack = popped ++ below)
    (hlen : popped.length = P.length p) (hgoto : P.goto (stateOf below) p = some s) :
    step P c = .ok (.inl { c with stack := (s, P.reduce p (popped.reverse.map Prod.snd)) :: below }) := by
  rw [step, hlook, ok_bind, hact]
  simp only [hstack, ← hlen, List.take_left, List.drop_left, if_true, hgoto]

/-- What a step may be. -/
theorem step_cases (h : step P c = .ok r) : ∃ look, lookahead c = .ok look ∧
    ((∃ s v, P.action (stateOf c.stack) look = some .accept ∧ c.stack.head? = some (s, v) ∧ r = .inr v) ∨
    (∃ t rest s, c.input = t :: rest ∧ P.action (stateOf c.stack) look = some (.shift s) ∧
      r = .inl { c with stack := (s, P.shift t) :: c.stack, input := rest }) ∨
    ∃ p s popped below, P.action (stateOf c.stack) look = some (.reduce p) ∧ c.stack = popped ++ below ∧
      popped.length = P.length p ∧ P.goto (stateOf below) p = some s ∧
      r = .inl { c with stack := (s, P.reduce p (popped.reverse.map Prod.snd)) :: below }) := by
  rw [step, bind_eq_ok] at h
  obtain ⟨look, hlook, h⟩ := h
  refine ⟨look, hlook, ?_⟩
  split at h
  next => exact absurd h nofun
  next s v tail hact hstack => exact .inl ⟨s, v, hact, by rw [hstack]; rfl, (Except.ok.inj h).symm⟩
  next s t rest hact hinput => exact .inr (.inl ⟨t, rest, s, hinput, hact, (Except.ok.inj h).symm⟩)
  next p hact =>
    simp only at h
    split_ifs at h with hlen
    split at h
    next s hgoto =>
      exact .inr (.inr ⟨p, s, _, _, hact, (List.take_append_drop (P.length p) c.stack).symm, hlen, hgoto,
        (Except.ok.inj h).symm⟩)
    next => exact absurd h nofun
  next => exact absurd h nofun

/-- Why a step may raise. -/
theorem step_error_cases {e : E} (h : step P c = .error e) : lookahead c = .error e ∨
    (∃ look, lookahead c = .ok look ∧ P.action (stateOf c.stack) look = none ∧ e = P.syntaxError) ∨ Stuck P c := by
  rw [step, bind_eq_error] at h
  obtain h | ⟨look, hlook, h⟩ := h
  · exact .inl h
  split at h
  next hact => exact .inr (.inl ⟨look, hlook, hact, (Except.error.inj h).symm⟩)
  next => exact absurd h nofun
  next => exact absurd h nofun
  next p hact =>
    refine .inr (.inr ⟨look, hlook, .inr (.inr ⟨p, hact, fun popped below s hstack hlen hgoto => ?_⟩)⟩)
    simp only [hstack, ← hlen, List.take_left, List.drop_left, if_true, hgoto] at h
    exact absurd h nofun
  next hnone hreduce hshift hacc =>
    refine .inr (.inr ⟨look, hlook, ?_⟩)
    cases hact : P.action (stateOf c.stack) look with
    | none => exact absurd hact hnone
    | some act =>
        cases act with
        | accept =>
            cases hstack : c.stack with
            | nil => exact .inl ⟨rfl, rfl⟩
            | cons x tail => exact absurd hstack (hacc x.1 x.2 tail hact)
        | shift s =>
            cases hinput : c.input with
            | nil => exact .inr (.inl ⟨s, rfl, rfl⟩)
            | cons t rest => exact absurd hinput (hshift s t rest hact)
        | reduce p => exact absurd hact (hreduce p)

end

/-! ## Runs -/

/-- Some steps. -/
inductive Steps : Config T V E → Config T V E → Prop
  | refl (c : Config T V E) : Steps c c
  | head {c c' c''} : step P c = .ok (.inl c') → Steps c' c'' → Steps c c''

variable {P} {c c' c'' : Config T V E} {r : Except E V} {v : V} {n k : ℕ}

/-- Steps behind steps. -/
theorem Steps.trans (h : Steps P c c') (h' : Steps P c' c'') : Steps P c c'' := by
  induction h with
  | refl c => exact h'
  | head hstep _ ih => exact .head hstep (ih h')

/-- A run behind a step. -/
theorem run_of_step (h : step P c = .ok (.inl c')) : run P (n + 1) c = run P n c' := by
  rw [run, h]

/-- A run whose fuel suffices goes through the steps. -/
theorem run_of_steps (h : Steps P c c') (hrun : run P n c = some r) (hacc : step P c' = .ok (.inr v)) : r = .ok v := by
  induction h generalizing n with
  | refl c =>
      cases n with
      | zero => simp [run] at hrun
      | succ n =>
          rw [run, hacc] at hrun
          exact (Option.some.inj hrun).symm
  | head hstep _ ih =>
      cases n with
      | zero => simp [run] at hrun
      | succ n =>
          rw [run_of_step hstep] at hrun
          exact ih hrun hacc

/-- **A measure** that sinks with each step is fuel enough. -/
theorem run_isSome {I : Config T V E → Prop} {μ : Config T V E → ℕ}
    (hstep : ∀ c c', I c → step P c = .ok (.inl c') → I c' ∧ μ c' < μ c) (hc : I c) (hn : μ c < n) :
    ∃ r, run P n c = some r := by
  induction n generalizing c with
  | zero => exact absurd hn (Nat.not_lt_zero _)
  | succ n ih =>
      cases hres : step P c with
      | error e => exact ⟨.error e, by rw [run, hres]⟩
      | ok res =>
          cases res with
          | inr v => exact ⟨.ok v, by rw [run, hres]⟩
          | inl c' =>
              obtain ⟨hc', hlt⟩ := hstep c c' hc hres
              obtain ⟨r, hr⟩ := ih hc' (by omega)
              exact ⟨r, by rw [run_of_step hres, hr]⟩

/-- **An invariant** holds where a run ends. -/
theorem run_invariant {I : Config T V E → Prop} (hstep : ∀ c c', I c → step P c = .ok (.inl c') → I c') (hc : I c)
    (hrun : run P n c = some r) : ∃ c', I c' ∧ step P c' = r.map .inr := by
  induction n generalizing c with
  | zero => simp [run] at hrun
  | succ n ih =>
      cases hres : step P c with
      | error e =>
          rw [run, hres] at hrun
          obtain rfl := Option.some.inj hrun
          exact ⟨c, hc, hres⟩
      | ok res =>
          cases res with
          | inr v =>
              rw [run, hres] at hrun
              obtain rfl := Option.some.inj hrun
              exact ⟨c, hc, hres⟩
          | inl c' =>
              rw [run_of_step hres] at hrun
              exact ih (hstep c c' hc hres) hrun

/-! ## Engines -/

/-- **What runs the tables of a parser**, as it is documented: it shifts, reduces and accepts as they say, raises
where they have no entry, and passes on what is raised behind the tokens. -/
structure Engine (P : Parser T V E) where
  parse : Config T V E → Except E V
  parse_step : ∀ c c', step P c = .ok (.inl c') → parse c = parse c'
  parse_accept : ∀ c v, step P c = .ok (.inr v) → parse c = .ok v
  parse_ending : ∀ c e, lookahead c = .error e → parse c = .error e
  parse_syntaxError : ∀ c look, lookahead c = .ok look → P.action (stateOf c.stack) look = none →
    parse c = .error P.syntaxError

/-- **What is returned** is what a run with enough fuel returns, if the parser is not stuck on its way. -/
theorem Engine.parse_eq (engine : Engine P) {I : Config T V E → Prop}
    (hstep : ∀ c c', I c → step P c = .ok (.inl c') → I c') (hstuck : ∀ c, I c → ¬ Stuck P c) (hc : I c)
    (hrun : run P n c = some r) : engine.parse c = r := by
  induction n generalizing c with
  | zero => simp [run] at hrun
  | succ n ih =>
      cases hres : step P c with
      | error e =>
          rw [run, hres] at hrun
          obtain rfl := Option.some.inj hrun
          rcases step_error_cases hres with hlook | ⟨look, hlook, hact, rfl⟩ | hstop
          · exact engine.parse_ending c e hlook
          · exact engine.parse_syntaxError c look hlook hact
          · exact absurd hstop (hstuck c hc)
      | ok res =>
          cases res with
          | inr v =>
              rw [run, hres] at hrun
              obtain rfl := Option.some.inj hrun
              exact engine.parse_accept c v hres
          | inl c' =>
              rw [run_of_step hres] at hrun
              rw [engine.parse_step c c' hres]
              exact ih (hstep c c' hc hres) hrun

/-- More fuel than a run takes changes nothing. -/
theorem run_mono (h : run P n c = some r) (hk : n ≤ k) : run P k c = some r := by
  induction n generalizing c k with
  | zero => simp [run] at h
  | succ n ih =>
      obtain ⟨k, rfl⟩ := Nat.exists_eq_add_of_le' (Nat.lt_of_lt_of_le (Nat.succ_pos n) hk)
      rw [run] at h ⊢
      cases hres : step P c with
      | error e => simpa only [hres] using h
      | ok res =>
          cases res with
          | inr v => simpa only [hres] using h
          | inl c' =>
              simp only [hres] at h ⊢
              exact ih h (by omega)

/-- An engine that steps, for tables with a measure that sinks with each step. -/
def Engine.ofMeasure (μ : Config T V E → ℕ) (hμ : ∀ c c', step P c = .ok (.inl c') → μ c' < μ c) : Engine P where
  parse c := (run P (μ c + 1) c).getD (.error P.stuck)
  parse_step c c' h := by
    obtain ⟨r, hr⟩ := run_isSome (fun c c' _ hstep => ⟨trivial, hμ c c' hstep⟩) trivial (Nat.lt_succ_self (μ c'))
    rw [run_of_step h, hr, run_mono hr (hμ c c' h)]
  parse_accept c v h := by rw [run, h]; rfl
  parse_ending c e h := by
    have hres : step P c = .error e := by rw [step, h]; rfl
    rw [run, hres]
    rfl
  parse_syntaxError c look h hact := by
    have hres : step P c = .error P.syntaxError := by rw [step, h, ok_bind, hact]
    rw [run, hres]
    rfl

end Asenal.Lib.ShiftReduce
